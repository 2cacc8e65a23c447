import PaskakasaOS.Kernel.Memory.InitPmm

/-!
# The memory map of `bootloader/setup_pmode.asm`

The real-mode loop stores one 24-byte record for each call of int 0x15/0xE820
and moves its destination on, until the BIOS returns a zero continuation value.
The table it fills has room for five records, and the kernel takes the first
all-zero record for the end of the map.
-/
namespace PaskakasaOS.Boot.SetupPmode

open Lib.ByteMemory Kernel.Memory.InitPmm

/-- The size of the table `entries`: five zero records. -/
def entriesSize : Nat := 5 * 24

/-- The memory in which the loader starts, with `entries` as it is on disk. -/
def loadEntries (m : Memory) (entries : Nat) : Memory := fill m entries entriesSize 0

/-- The loop of `enable_pmode` with `edi` as destination and the records that the
BIOS has left: the memory, and the destinations of the stores. `ebx` is zero with
the last record, and from the start when the BIOS has none. -/
def loop (m : Memory) (edi : Nat) : List E820Entry → Memory × List Nat
  | [] => (m, [])
  | entry :: rest =>
    let (m, stores) := loop (storeEntry m edi entry) (edi + 24) rest
    (m, edi :: stores)

theorem loop_fst (m : Memory) (edi : Nat) (records : List E820Entry) :
    (loop m edi records).1 = storeEntries m edi records := by
  induction records generalizing m edi with
  | nil => rfl
  | cons entry rest ih => exact ih (storeEntry m edi entry) (edi + 24)

theorem mem_loop_snd (m : Memory) (edi : Nat) (records : List E820Entry) (a : Nat) :
    a ∈ (loop m edi records).2 ↔ ∃ i, i < records.length ∧ a = edi + 24 * i := by
  induction records generalizing m edi with
  | nil => simp [loop]
  | cons entry rest ih =>
    rw [loop, List.mem_cons, ih]
    constructor
    · rintro (rfl | ⟨i, hi, rfl⟩)
      · exact ⟨0, by simp, by simp⟩
      · exact ⟨i + 1, by simpa using hi, by omega⟩
    · rintro ⟨i, hi, rfl⟩
      cases i with
      | zero => exact Or.inl (by simp)
      | succ i => exact Or.inr ⟨i, by simpa using hi, by omega⟩

/-- The memory the kernel finds. -/
def collected (m : Memory) (entries : Nat) (map : MemoryMap) : Memory :=
  (loop (loadEntries m entries) entries map.entries).1

/-- The records stay inside the table, an all-zero record follows them there, and
the scan of `init_pmm` processes exactly them. -/
structure HandedOver (m : Memory) (entries : Nat) (map : MemoryMap) : Prop where
  inside : ∀ edi ∈ (loop (loadEntries m entries) entries map.entries).2,
    entries ≤ edi ∧ edi + 24 ≤ entries + entriesSize
  terminated : e820Entry (collected m entries map) entries map.entries.length = allZero ∧
    24 * map.entries.length + 24 ≤ entriesSize
  scanned : processed (e820Entry (collected m entries map) entries) 50 0 = map.entries

theorem e820Entry_loadEntries (m : Memory) (entries : Nat) {i : Nat} (hi : i < 5) :
    e820Entry (loadEntries m entries) entries i = allZero := by
  have field : ∀ o k, o + k ≤ 24 →
      readLE k (loadEntries m entries) (entries + 24 * i + o) = 0 := by
    intro o k hok
    apply readLE_fill_zero
    · omega
    · rw [entriesSize]
      omega
  have h0 := field 0 8 (by omega)
  rw [Nat.add_zero] at h0
  simp only [e820Entry, h0, field 8 8 (by omega), field 16 4 (by omega), field 20 4 (by omega)]
  rfl

/-- The record after the stored ones is still the one of the empty table. -/
theorem e820Entry_after {m : Memory} {entries : Nat} {map : MemoryMap}
    (h : map.entries.length ≤ 4) :
    e820Entry (collected m entries map) entries map.entries.length = allZero := by
  rw [← e820Entry_loadEntries m entries (Nat.lt_succ_of_le h), collected, loop_fst]
  apply e820Entry_congr
  intro b hb _
  exact storeEntries_outside (Or.inr hb)

/-- The hand-off works exactly for memory maps of at most four records. -/
theorem handedOver_iff (m : Memory) (entries : Nat) (map : MemoryMap) :
    HandedOver m entries map ↔ map.entries.length ≤ 4 := by
  constructor
  · intro h
    have hroom := h.terminated.2
    rw [entriesSize] at hroom
    omega
  · intro h
    refine ⟨?_, ⟨e820Entry_after h, ?_⟩, ?_⟩
    · intro edi hedi
      obtain ⟨i, hi, rfl⟩ := (mem_loop_snd _ _ _ _).mp hedi
      rw [entriesSize]
      omega
    · rw [entriesSize]
      omega
    · have hall : map.entries.take 50 = map.entries := List.take_of_length_le (by omega)
      rw [← hall]
      apply processed_eq_take
      · intro i hi
        rw [Nat.zero_add, collected, loop_fst, e820Entry_storeEntries _ _ _ hi]
      · rw [Nat.zero_add]
        exact e820Entry_after h
      · exact map.nonzero

/-- The seven records of a PC with 128 MiB. -/
def sevenRecords : MemoryMap where
  entries := [⟨0, 0x9FC00, 1, 0⟩, ⟨0x9FC00, 0x400, 2, 0⟩, ⟨0xF0000, 0x10000, 2, 0⟩,
    ⟨0x100000, 0x7EE0000, 1, 0⟩, ⟨0x7FE0000, 0x20000, 2, 0⟩, ⟨0xFFFC0000, 0x40000, 2, 0⟩,
    ⟨0xFD00000000, 0x300000000, 2, 0⟩]
  nonzero := by decide

/-- The sixth record is stored past the table. -/
theorem sevenRecords_not_handedOver : ¬ HandedOver (fun _ => 0) 0x8000 sevenRecords := by
  intro h
  have hsixth : 0x8000 + 24 * 5 ∈
      (loop (loadEntries (fun _ => 0) 0x8000) 0x8000 sevenRecords.entries).2 :=
    (mem_loop_snd _ _ _ _).mpr ⟨5, by decide, rfl⟩
  have hinside := (h.inside _ hsixth).2
  rw [entriesSize] at hinside
  omega

end PaskakasaOS.Boot.SetupPmode
