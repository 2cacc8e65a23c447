import PaskakasaOS.Kernel.Utils.Mem
import PaskakasaOS.Kernel.Memory.Pmm

/-!
# `map_page` of `kernel/memory/vmm.c`

The tables live in physical memory and are reached at their physical addresses.
A table pointer is the address `pmm_allocate` returned or the masked field of
an entry, as in the source; `none` is the access past the end of the bitmap.
`walk` is the translation the processor makes of the same tables.
-/
namespace PaskakasaOS.Kernel.Memory.Vmm

open Lib.ByteMemory
open Utils.Mem (memset)
open Pmm (Pool pmmAllocate)

def PRESENT : Nat := 1 <<< 0
def WRITABLE : Nat := 1 <<< 1
def PAT : Nat := 1 <<< 7

def ADDRESS_MASK : Nat := 0xFFFFFFFFFF000

def ptIndex (address : Nat) : Nat := (address >>> 12) &&& 0x1ff
def pmdIndex (address : Nat) : Nat := (address >>> 21) &&& 0x1ff
def pudIndex (address : Nat) : Nat := (address >>> 30) &&& 0x1ff
def pml4Index (address : Nat) : Nat := (address >>> 39) &&& 0x1ff

/-- `table[i]` of a `uint64_t *`. -/
def entry (m : Memory) (table i : Nat) : Nat := readLE 8 m (table + 8 * i)

def setEntry (m : Memory) (table i value : Nat) : Memory := writeLE 8 m (table + 8 * i) value

/-- The memory, the frame pool and the global `pml`. -/
structure Vm where
  mem : Memory
  pool : Pool
  pml : Nat

/-- One of the three blocks of `map_page` that find the table below
`table[i]`, taking and clearing a new one when the entry is not present. -/
def nextTable (s : Vm) (table i : Nat) : Option (Nat × Vm) :=
  if entry s.mem table i &&& PRESENT = 0 then do
    let (frame, pool) ← pmmAllocate s.pool
    let mem := memset s.mem frame 0 0x1000
    some (frame, { s with
      mem := setEntry mem table i ((frame &&& ADDRESS_MASK) ||| PRESENT ||| WRITABLE), pool := pool })
  else some (entry s.mem table i &&& ADDRESS_MASK, s)

def mapPage (s : Vm) (vaddress paddress : Nat) : Option Vm := do
  let (pud, s) ← nextTable s s.pml (pml4Index vaddress)
  let (pmd, s) ← nextTable s pud (pudIndex vaddress)
  let (pt, s) ← nextTable s pmd (pmdIndex vaddress)
  if entry s.mem pt (ptIndex vaddress) &&& PRESENT = 0 then
    some { s with
      mem := setEntry s.mem pt (ptIndex vaddress) (paddress ||| PAT ||| PRESENT ||| WRITABLE) }
  else some s

/-- The loop of `alloc`, which counts from 1, with its remaining rounds. -/
def allocLoop (s : Vm) : Nat → Option Vm
  | 0 => some s
  | rounds + 1 => do
    let (more, pool) ← pmmAllocate s.pool
    let s ← mapPage { s with pool := pool } more more
    allocLoop s rounds

def alloc (s : Vm) (n : UInt32) : Option (Nat × Vm) := do
  let (start, pool) ← pmmAllocate s.pool
  let s ← mapPage { s with pool := pool } start start
  let s ← allocLoop s (n.toNat - 1)
  some (start, s)

/-- The indices of the entries that `map_page` follows to the table of the leaf. -/
def tableIndices (v : Nat) : List Nat := [pml4Index v, pudIndex v, pmdIndex v]

/-- The blocks of `map_page` one after another, from a table on. -/
def descend (s : Vm) (table : Nat) : List Nat → Option (Nat × Vm)
  | [] => some (table, s)
  | i :: indices => do
    let (table, s) ← nextTable s table i
    descend s table indices

/-- `map_page` up to its last `if`: the table of the leaf of `v`. -/
def lastTable (s : Vm) (v : Nat) : Option (Nat × Vm) := descend s s.pml (tableIndices v)

/-- The last `if` of `map_page`. -/
def setLeaf (s : Vm) (pt v p : Nat) : Vm :=
  if entry s.mem pt (ptIndex v) &&& PRESENT = 0 then
    { s with mem := setEntry s.mem pt (ptIndex v) (p ||| PAT ||| PRESENT ||| WRITABLE) }
  else s

theorem mapPage_eq (s : Vm) (v p : Nat) :
    mapPage s v p = (lastTable s v).map (fun t => setLeaf t.2 t.1 v p) := by
  simp only [mapPage, lastTable, tableIndices, descend, setLeaf, Option.bind_eq_bind]
  cases nextTable s s.pml (pml4Index v) with
  | none => rfl
  | some a =>
    cases hb : nextTable a.2 a.1 (pudIndex v) with
    | none => simp [hb]
    | some b =>
      cases hc : nextTable b.2 b.1 (pmdIndex v) with
      | none => simp [hb, hc]
      | some c =>
        simp only [hb, hc, Option.bind_some, Option.map_some]
        split <;> rfl

section Inversion

variable {s s' : Vm} {table i t v p : Nat} {indices : List Nat}

/-- A block adds the frame that `pmm_allocate` answers as a table, or finds one. -/
theorem nextTable_inv (h : nextTable s table i = some (t, s')) :
    (entry s.mem table i &&& PRESENT = 0 ∧ ∃ pool, pmmAllocate s.pool = some (t, pool) ∧
      s' = { s with
        mem := setEntry (memset s.mem t 0 0x1000) table i
          ((t &&& ADDRESS_MASK) ||| PRESENT ||| WRITABLE)
        pool := pool }) ∨
      (entry s.mem table i &&& PRESENT ≠ 0 ∧ t = entry s.mem table i &&& ADDRESS_MASK ∧ s' = s) := by
  rw [nextTable] at h
  split at h
  · next habsent =>
    obtain ⟨⟨frame, pool⟩, ha, h⟩ := Option.bind_eq_some_iff.mp h
    obtain ⟨rfl, rfl⟩ := Prod.mk.inj (Option.some.inj h)
    exact Or.inl ⟨habsent, pool, ha, rfl⟩
  · next hpresent =>
    obtain ⟨rfl, rfl⟩ := Prod.mk.inj (Option.some.inj h)
    exact Or.inr ⟨hpresent, rfl, rfl⟩

theorem descend_cons_inv (h : descend s table (i :: indices) = some (t, s')) :
    ∃ table' s1, nextTable s table i = some (table', s1) ∧ descend s1 table' indices = some (t, s') := by
  rw [descend] at h
  obtain ⟨⟨table', s1⟩, hnext, hrest⟩ := Option.bind_eq_some_iff.mp h
  exact ⟨table', s1, hnext, hrest⟩

theorem mapPage_inv (h : mapPage s v p = some s') :
    ∃ pt t, lastTable s v = some (pt, t) ∧ s' = setLeaf t pt v p := by
  rw [mapPage_eq] at h
  obtain ⟨⟨pt, t⟩, hlast, heq⟩ := Option.map_eq_some_iff.mp h
  exact ⟨pt, t, hlast, heq.symm⟩

end Inversion

/-- What a present entry points to. -/
def target (m : Memory) (table i : Nat) : Option Nat :=
  if entry m table i &&& PRESENT = 0 then none else some (entry m table i &&& ADDRESS_MASK)

/-- The four-level walk: the frame address of the page of `v`. -/
def walk (m : Memory) (pml v : Nat) : Option Nat := do
  let pud ← target m pml (pml4Index v)
  let pmd ← target m pud (pudIndex v)
  let pt ← target m pmd (pmdIndex v)
  target m pt (ptIndex v)

/-- The physical address of `v`. -/
def physicalAddress (m : Memory) (pml v : Nat) : Option Nat :=
  (walk m pml v).map (· + v % 0x1000)

/-- The tables `map_page` has to create for `v`. -/
def tablesNeeded (m : Memory) (pml v : Nat) : Nat :=
  match target m pml (pml4Index v) with
  | none => 3
  | some pud =>
    match target m pud (pudIndex v) with
    | none => 2
    | some pmd => if target m pmd (pmdIndex v) = none then 1 else 0

end PaskakasaOS.Kernel.Memory.Vmm
