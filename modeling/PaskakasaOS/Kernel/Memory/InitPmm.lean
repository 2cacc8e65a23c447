import PaskakasaOS.Kernel.Memory.InitPaging

/-!
# `init_pmm` of `kernel/memory/pmm.c`

The boot loader leaves the memory map as packed 24-byte records ended by an
all-zero one. `init_pmm` walks at most 50 of them and makes the first usable
region that does not start at address zero the frame pool, moved past the
kernel when it starts inside the kernel image.
-/
namespace PaskakasaOS.Kernel.Memory.InitPmm

open Lib.ByteMemory Pmm InitPaging

/-! ## Records in memory -/

/-- `e820_entry_t`. -/
structure E820Entry where
  base : UInt64
  regionLength : UInt64
  regionType : UInt32
  acpi : UInt32
  deriving DecidableEq

/-- The record that ends a memory map. -/
def allZero : E820Entry := ⟨0, 0, 0, 0⟩

/-- `((e820_entry_t*)e820map)[i]` -/
def e820Entry (m : Memory) (e820map i : Nat) : E820Entry where
  base := UInt64.ofNat (readLE 8 m (e820map + 24 * i))
  regionLength := UInt64.ofNat (readLE 8 m (e820map + 24 * i + 8))
  regionType := UInt32.ofNat (readLE 4 m (e820map + 24 * i + 16))
  acpi := UInt32.ofNat (readLE 4 m (e820map + 24 * i + 20))

/-- One 24-byte record written at `a`. -/
def storeEntry (m : Memory) (a : Nat) (entry : E820Entry) : Memory :=
  let m := writeLE 8 m a entry.base.toNat
  let m := writeLE 8 m (a + 8) entry.regionLength.toNat
  let m := writeLE 4 m (a + 16) entry.regionType.toNat
  writeLE 4 m (a + 20) entry.acpi.toNat

/-- Records written one after another from `a` on. -/
def storeEntries (m : Memory) (a : Nat) : List E820Entry → Memory
  | [] => m
  | entry :: entries => storeEntries (storeEntry m a entry) (a + 24) entries

theorem e820Entry_congr {m m' : Memory} {e820map i : Nat}
    (h : ∀ b, e820map + 24 * i ≤ b → b < e820map + 24 * i + 24 → m b = m' b) :
    e820Entry m e820map i = e820Entry m' e820map i := by
  have field : ∀ o k, o + k ≤ 24 →
      readLE k m (e820map + 24 * i + o) = readLE k m' (e820map + 24 * i + o) := by
    intro o k hok
    apply readLE_congr
    intro j hj
    exact h _ (by omega) (by omega)
  have h0 := field 0 8 (by omega)
  rw [Nat.add_zero] at h0
  simp only [e820Entry, h0, field 8 8 (by omega), field 16 4 (by omega), field 20 4 (by omega)]

theorem e820Entry_succ (m : Memory) (a i : Nat) :
    e820Entry m a (i + 1) = e820Entry m (a + 24) i := by
  rw [e820Entry, e820Entry, show a + 24 * (i + 1) = a + 24 + 24 * i by omega]

theorem storeEntry_outside {m : Memory} {a b : Nat} (entry : E820Entry)
    (h : b < a ∨ a + 24 ≤ b) : storeEntry m a entry b = m b := by
  unfold storeEntry
  rw [writeLE_outside (by omega), writeLE_outside (by omega), writeLE_outside (by omega),
    writeLE_outside (by omega)]

theorem e820Entry_storeEntry (m : Memory) (a : Nat) (entry : E820Entry) :
    e820Entry (storeEntry m a entry) a 0 = entry := by
  have hbase : readLE 8 (storeEntry m a entry) a = entry.base.toNat := by
    unfold storeEntry
    rw [readLE_writeLE_disjoint (by omega), readLE_writeLE_disjoint (by omega),
      readLE_writeLE_disjoint (by omega), readLE_writeLE_of_lt entry.base.toNat_lt]
  have hlength : readLE 8 (storeEntry m a entry) (a + 8) = entry.regionLength.toNat := by
    unfold storeEntry
    rw [readLE_writeLE_disjoint (by omega), readLE_writeLE_disjoint (by omega),
      readLE_writeLE_of_lt entry.regionLength.toNat_lt]
  have htype : readLE 4 (storeEntry m a entry) (a + 16) = entry.regionType.toNat := by
    unfold storeEntry
    rw [readLE_writeLE_disjoint (by omega), readLE_writeLE_of_lt entry.regionType.toNat_lt]
  have hacpi : readLE 4 (storeEntry m a entry) (a + 20) = entry.acpi.toNat := by
    unfold storeEntry
    rw [readLE_writeLE_of_lt entry.acpi.toNat_lt]
  simp only [e820Entry, Nat.mul_zero, Nat.add_zero, hbase, hlength, htype, hacpi,
    UInt64.ofNat_toNat, UInt32.ofNat_toNat]

theorem storeEntries_outside {m : Memory} {a b : Nat} {entries : List E820Entry}
    (h : b < a ∨ a + 24 * entries.length ≤ b) : storeEntries m a entries b = m b := by
  induction entries generalizing m a with
  | nil => rfl
  | cons entry entries ih =>
    rw [List.length_cons] at h
    rw [storeEntries, ih (by omega), storeEntry_outside entry (by omega)]

theorem e820Entry_storeEntries (m : Memory) (a : Nat) (entries : List E820Entry) {i : Nat}
    (hi : i < entries.length) : e820Entry (storeEntries m a entries) a i = entries[i] := by
  induction entries generalizing m a i with
  | nil => simp at hi
  | cons entry entries ih =>
    cases i with
    | zero =>
      have hkeep : e820Entry (storeEntries m a (entry :: entries)) a 0 =
          e820Entry (storeEntry m a entry) a 0 := by
        apply e820Entry_congr
        intro b _ hb
        exact storeEntries_outside (Or.inl (by omega))
      rw [hkeep, e820Entry_storeEntry]
      rfl
    | succ i =>
      rw [e820Entry_succ]
      exact ih (storeEntry m a entry) (a + 24) (by simpa using hi)

/-! ## The scan -/

def kphysStart : Nat := 0x100000

/-- The kernel as linked at `kernel_start`: `kernel_end` is an address. -/
structure KernelImage where
  klength : Nat
  linked : kernelStart + klength < 2 ^ 64

/-- `x & ~0xFFF` -/
def maskPage (x : Nat) : Nat := x / 0x1000 * 0x1000

/-- The variables that the loop of `init_pmm` writes. -/
structure Search where
  base : Nat
  length : Nat
  totalMemory : Nat
  foundMemoryArea : Nat

/-- A record that starts in the memory the kernel image occupies. -/
def StartsInKernel (kernel : KernelImage) (entry : E820Entry) : Prop :=
  kphysStart ≤ entry.base.toNat ∧ entry.base.toNat ≤ (kphysStart + kernel.klength) % 2 ^ 64

instance (kernel : KernelImage) (entry : E820Entry) : Decidable (StartsInKernel kernel entry) :=
  inferInstanceAs (Decidable (_ ∧ _))

/-- The loop body of `init_pmm` after the end test. -/
def initPmmEntry (kernel : KernelImage) (s : Search) (entry : E820Entry) : Search :=
  if entry.regionType = 0x1 then
    let s := { s with totalMemory := (s.totalMemory + entry.regionLength.toNat) % 2 ^ 64 }
    if StartsInKernel kernel entry ∧ s.foundMemoryArea = 0 then
      { s with
        base := maskPage ((kphysStart + kernel.klength + 0x1000 + 0xFFF) % 2 ^ 64)
        length := (entry.regionLength.toNat + 2 ^ 64 - kernel.klength) % 2 ^ 64
        foundMemoryArea := s.foundMemoryArea + 1 }
    else if s.foundMemoryArea = 0 ∧ entry.base ≠ 0x0 then
      { s with
        base := entry.base.toNat
        length := entry.regionLength.toNat
        foundMemoryArea := s.foundMemoryArea + 1 }
    else s
  else s

/-- The loop of `init_pmm` at index `i`, with `n` iterations left. -/
def initPmmLoop (kernel : KernelImage) (entry : Nat → E820Entry) : Nat → Nat → Search → Search
  | 0, _, s => s
  | n + 1, i, s =>
    if entry i = allZero then s
    else initPmmLoop kernel entry n (i + 1) (initPmmEntry kernel s (entry i))

/-- The globals `pool` and `pmeminfo`. -/
structure Globals where
  pool : Pool
  totalMemory : Nat

def initPmmSearch (kernel : KernelImage) (m : Memory) (e820map : Nat) (g : Globals) : Search :=
  initPmmLoop kernel (e820Entry m e820map) 50 0 ⟨g.pool.base, g.pool.length, g.totalMemory, 0⟩

def initPmm (kernel : KernelImage) (m : Memory) (e820map : Nat) (g : Globals) : Globals :=
  let s := initPmmSearch kernel m e820map g
  { pool :=
      { base := s.base
        length := s.length
        pages := s.length / 0x1000
        bitmap := Vector.replicate 100 0 }
    totalMemory := s.totalMemory }

/-! ## What the scan processes -/

/-- The records the loop body runs on. -/
def processed (entry : Nat → E820Entry) : Nat → Nat → List E820Entry
  | 0, _ => []
  | n + 1, i => if entry i = allZero then [] else entry i :: processed entry n (i + 1)

theorem initPmmLoop_eq (kernel : KernelImage) (entry : Nat → E820Entry) (n i : Nat) (s : Search) :
    initPmmLoop kernel entry n i s = (processed entry n i).foldl (initPmmEntry kernel) s := by
  induction n generalizing i s with
  | zero => rfl
  | succ n ih =>
    rw [initPmmLoop, processed]
    by_cases hzero : entry i = allZero
    · rw [if_pos hzero, if_pos hzero]
      rfl
    · rw [if_neg hzero, if_neg hzero, List.foldl_cons, ih]

/-- On a list ended by the all-zero record the scan processes its first records. -/
theorem processed_eq_take {entry : Nat → E820Entry} {entries : List E820Entry} {i : Nat}
    (hentry : ∀ j (hj : j < entries.length), entry (i + j) = entries[j])
    (hend : entry (i + entries.length) = allZero) (hnonzero : allZero ∉ entries) (n : Nat) :
    processed entry n i = entries.take n := by
  induction n generalizing i entries with
  | zero => rfl
  | succ n ih =>
    cases entries with
    | nil =>
      rw [List.length_nil, Nat.add_zero] at hend
      rw [processed, if_pos hend, List.take_nil]
    | cons first rest =>
      have hfirst : entry i = first := hentry 0 (by simp)
      have hne : entry i ≠ allZero := by
        rw [hfirst]
        intro hzero
        exact hnonzero (hzero ▸ List.mem_cons_self)
      have hrest : processed entry n (i + 1) = rest.take n := by
        apply ih
        · intro j hj
          have hnext := hentry (j + 1) (by simpa using hj)
          rwa [show i + (j + 1) = i + 1 + j by omega, List.getElem_cons_succ] at hnext
        · rwa [List.length_cons, show i + (rest.length + 1) = i + 1 + rest.length by omega] at hend
        · exact fun hmem => hnonzero (List.mem_cons_of_mem first hmem)
      rw [processed, if_neg hne, hrest, hfirst, List.take_succ_cons]

/-- A memory map as firmware describes it: the records before the all-zero one. -/
structure MemoryMap where
  entries : List E820Entry
  nonzero : allZero ∉ entries

/-- The memory map stored at `e820map`, its terminator included. -/
def MemoryMap.place (map : MemoryMap) (m : Memory) (e820map : Nat) : Memory :=
  storeEntries m e820map (map.entries ++ [allZero])

theorem processed_place (map : MemoryMap) (m : Memory) (e820map n : Nat) :
    processed (e820Entry (map.place m e820map) e820map) n 0 = map.entries.take n := by
  apply processed_eq_take
  · intro j hj
    have hlt : j < (map.entries ++ [allZero]).length := by
      rw [List.length_append]
      omega
    rw [Nat.zero_add, MemoryMap.place, e820Entry_storeEntries _ _ _ hlt, List.getElem_append_left hj]
  · have hlt : map.entries.length < (map.entries ++ [allZero]).length := by simp
    rw [Nat.zero_add, MemoryMap.place, e820Entry_storeEntries _ _ _ hlt]
    simp
  · exact map.nonzero

end PaskakasaOS.Kernel.Memory.InitPmm
