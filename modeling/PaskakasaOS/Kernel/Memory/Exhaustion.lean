import PaskakasaOS.Kernel.Memory.VmmTree

/-!
# `map_page` without frames

`pmm_allocate` answers 0 when no frame is left. `map_page` does not look at the answer:
it clears the page at address 0, where the kernel image lies, and links it as a table.
-/
namespace PaskakasaOS.Kernel.Memory.Exhaustion

open Lib.ByteMemory
open Utils.Mem (memset_eq_fill)
open Pmm Vmm

/-! ## What `map_page` stores to -/

/-- Ranges of bytes, each with its start and its length. -/
abbrev Ranges := List (Nat × Nat)

/-- The ranges that the block for `table[i]` stores to: the new table and the entry. -/
def tableStores (s : Vm) (table i : Nat) : Ranges :=
  if entry s.mem table i &&& PRESENT = 0 then
    match pmmAllocate s.pool with
    | none => []
    | some (frame, _) => [(frame, 0x1000), (table + 8 * i, 8)]
  else []

def leafStores (s : Vm) (pt v : Nat) : Ranges :=
  if entry s.mem pt (ptIndex v) &&& PRESENT = 0 then [(pt + 8 * ptIndex v, 8)] else []

def descentStores (s : Vm) (table : Nat) : List Nat → Ranges
  | [] => []
  | i :: indices =>
    tableStores s table i ++
      match nextTable s table i with
      | none => []
      | some (table, s) => descentStores s table indices

/-- All ranges that `map_page` stores to for the address `v`, in order. -/
def mapPageStores (s : Vm) (v : Nat) : Ranges :=
  descentStores s s.pml (tableIndices v) ++
    match lastTable s v with
    | none => []
    | some (pt, s) => leafStores s pt v

def Outside (b : Nat) (ranges : Ranges) : Prop := ∀ x ∈ ranges, b < x.1 ∨ x.1 + x.2 ≤ b

section Stores

variable {s s' : Vm} {table t i b v p : Nat} {indices : List Nat}

theorem outside_append {xs ys : Ranges} :
    Outside b (xs ++ ys) ↔ Outside b xs ∧ Outside b ys := by
  simp only [Outside, List.mem_append, or_imp, forall_and]

theorem nextTable_outside (h : nextTable s table i = some (t, s')) (hb : Outside b (tableStores s table i)) :
    s'.mem b = s.mem b := by
  rw [tableStores] at hb
  rcases nextTable_inv h with ⟨habsent, pool, ha, rfl⟩ | ⟨_, _, rfl⟩
  · rw [if_pos habsent, ha] at hb
    have htable := hb (t, 0x1000) (by simp)
    have hentry := hb (table + 8 * i, 8) (by simp)
    rw [memset_eq_fill]
    exact (writeLE_outside hentry).trans (fill_outside 0 htable)
  · rfl

theorem descend_outside (h : descend s table indices = some (t, s'))
    (hb : Outside b (descentStores s table indices)) : s'.mem b = s.mem b := by
  induction indices generalizing s table with
  | nil =>
    obtain ⟨_, rfl⟩ := Prod.mk.inj (Option.some.inj h)
    rfl
  | cons i indices ih =>
    obtain ⟨table', s1, hnext, hrest⟩ := descend_cons_inv h
    rw [descentStores, hnext, outside_append] at hb
    exact (ih hrest hb.2).trans (nextTable_outside hnext hb.1)

/-- `map_page` changes no byte outside of the ranges it stores to. -/
theorem mapPage_outside (h : mapPage s v p = some s') (hb : Outside b (mapPageStores s v)) :
    s'.mem b = s.mem b := by
  obtain ⟨pt, t, hlast, rfl⟩ := mapPage_inv h
  rw [mapPageStores, hlast, outside_append] at hb
  refine Eq.trans ?_ (descend_outside hlast hb.1)
  have hleaf := hb.2
  simp only [leafStores] at hleaf
  simp only [setLeaf]
  by_cases habsent : entry t.mem pt (ptIndex v) &&& PRESENT = 0
  · rw [if_pos habsent] at hleaf ⊢
    exact writeLE_outside (hleaf (pt + 8 * ptIndex v, 8) (by simp))
  · rw [if_neg habsent]

end Stores

/-! ## A call that runs out of frames -/

/-- The block for `table[i]` needs a new table and `pmm_allocate` returns 0. -/
def OutOfFrames (s : Vm) (table i : Nat) : Prop :=
  entry s.mem table i &&& PRESENT = 0 ∧ ∃ pool, pmmAllocate s.pool = some (0, pool)

/-- It happens at one of the blocks on the way. -/
def RunsOut (s : Vm) (table : Nat) : List Nat → Prop
  | [] => False
  | i :: indices =>
    OutOfFrames s table i ∨
      ∃ t s', nextTable s table i = some (t, s') ∧ RunsOut s' t indices

/-- `pmm_allocate` returns 0 at one of the points where `map_page` needs a table for `v`. -/
def FramesRunOut (s : Vm) (v : Nat) : Prop := RunsOut s s.pml (tableIndices v)

/-- The call changes no translation and stores nothing in the page at address 0. -/
structure FailsCleanly (s : Vm) (v p : Nat) : Prop where
  translations : ∃ s', mapPage s v p = some s' ∧ ∀ v', walk s'.mem s'.pml v' = walk s.mem s.pml v'
  pageZero : ∀ b < 0x1000, Outside b (mapPageStores s v)

theorem nextTable_new {s : Vm} {table i frame : Nat} {pool : Pool}
    (habsent : entry s.mem table i &&& PRESENT = 0) (ha : pmmAllocate s.pool = some (frame, pool)) :
    nextTable s table i = some (frame, ⟨setEntry (fill s.mem frame 0x1000 0) table i
      ((frame &&& ADDRESS_MASK) ||| PRESENT ||| WRITABLE), pool, s.pml⟩) := by
  rw [nextTable, if_pos habsent, ha]
  simp only [Option.bind_eq_bind, Option.bind_some, memset_eq_fill]

theorem nextTable_found {s : Vm} {table i t : Nat} (hpresent : entry s.mem table i &&& PRESENT ≠ 0)
    (ht : entry s.mem table i &&& ADDRESS_MASK = t) : nextTable s table i = some (t, s) := by
  rw [nextTable, if_neg hpresent, ht]

/-- The block clears the page at address 0 and links it. -/
theorem nextTable_of_outOfFrames {s : Vm} {table i : Nat} (h : OutOfFrames s table i) :
    ∃ pool, nextTable s table i =
      some (0, ⟨setEntry (fill s.mem 0 0x1000 0) table i 3, pool, s.pml⟩) := by
  obtain ⟨habsent, pool, hzero⟩ := h
  exact ⟨pool, nextTable_new habsent hzero⟩

theorem descentStores_page_zero {s : Vm} {table : Nat} {indices : List Nat}
    (h : RunsOut s table indices) : (0, 0x1000) ∈ descentStores s table indices := by
  induction indices generalizing s table with
  | nil => exact h.elim
  | cons i indices ih =>
    rw [descentStores, List.mem_append]
    rcases h with ⟨habsent, pool, hzero⟩ | ⟨t, s', hnext, hrest⟩
    · left
      rw [tableStores, if_pos habsent, hzero]
      exact List.mem_cons_self
    · right
      rw [hnext]
      exact ih hrest

/-- No call that runs out of frames fails cleanly. -/
theorem mapPage_not_clean {s : Vm} {v : Nat} (h : FramesRunOut s v) (p : Nat) :
    ¬ FailsCleanly s v p := by
  intro hclean
  have hmem : (0, 0x1000) ∈ mapPageStores s v :=
    List.mem_append_left _ (descentStores_page_zero h)
  have houtside := hclean.pageZero 0 (by decide) _ hmem
  omega

/-- A pool of four frames from 2 MiB on, the first `n` of which are taken. -/
def fourFrames : Nat → Pool
  | 0 => ⟨0x200000, 0x4000, 4, Vector.replicate 100 0⟩
  | n + 1 => { fourFrames n with bitmap := (fourFrames n).bitmap.setIfInBounds n 1 }

/-- The kernel image from address 0 on, and a cleared `pml` in the first frame. -/
def startedVm : Vm where
  mem := fill (fun b => if b < 0x1000 then 0xCC else 0) 0x200000 0x1000 0
  pool := fourFrames 1
  pml := 0x200000

/-- A new table at `frame`, linked in the entry `i` of `table`. -/
def link (m : Memory) (frame table i : Nat) : Memory := setEntry (fill m frame 0x1000 0) table i (frame ||| 3)

/-- The three tables for `0x40000000` have used the pool up. -/
def exhaustedVm : Vm where
  mem := setEntry (link (link (link startedVm.mem 0x201000 0x200000 0) 0x202000 0x201000 1)
    0x203000 0x202000 0) 0x203000 0 0x40000083
  pool := fourFrames 4
  pml := 0x200000

theorem mapPage_startedVm : mapPage startedVm 0x40000000 0x40000000 = some exhaustedVm := by
  have hpud : nextTable startedVm startedVm.pml 0 =
      some (0x201000, ⟨link startedVm.mem 0x201000 0x200000 0, fourFrames 2, 0x200000⟩) :=
    nextTable_new (by decide +kernel) (by rfl)
  have hpmd : nextTable ⟨link startedVm.mem 0x201000 0x200000 0, fourFrames 2, 0x200000⟩ 0x201000 1 =
      some (0x202000, ⟨link (link startedVm.mem 0x201000 0x200000 0) 0x202000 0x201000 1,
        fourFrames 3, 0x200000⟩) :=
    nextTable_new (by decide +kernel) (by rfl)
  have hpt : nextTable ⟨link (link startedVm.mem 0x201000 0x200000 0) 0x202000 0x201000 1, fourFrames 3,
      0x200000⟩ 0x202000 0 =
      some (0x203000, ⟨link (link (link startedVm.mem 0x201000 0x200000 0) 0x202000 0x201000 1)
        0x203000 0x202000 0, fourFrames 4, 0x200000⟩) :=
    nextTable_new (by decide +kernel) (by rfl)
  have hindices : tableIndices 0x40000000 = [0, 1, 0] := by decide
  rw [mapPage_eq, lastTable, hindices]
  simp only [descend, hpud, hpmd, hpt, Option.bind_eq_bind, Option.bind_some, Option.map_some]
  rw [setLeaf, show ptIndex 0x40000000 = 0 by decide, if_pos (by decide +kernel)]
  rfl

theorem exhaustedVm_outOfFrames : OutOfFrames exhaustedVm 0x202000 1 :=
  ⟨by decide +kernel, exhaustedVm.pool, by rfl⟩

theorem exhaustedVm_pud : nextTable exhaustedVm exhaustedVm.pml 0 = some (0x201000, exhaustedVm) :=
  nextTable_found (by decide +kernel) (by decide +kernel)

theorem exhaustedVm_pmd : nextTable exhaustedVm 0x201000 1 = some (0x202000, exhaustedVm) :=
  nextTable_found (by decide +kernel) (by decide +kernel)

theorem exhaustedVm_runsOut : FramesRunOut exhaustedVm 0x40202000 :=
  Or.inr ⟨0x201000, exhaustedVm, exhaustedVm_pud, Or.inr ⟨0x202000, exhaustedVm, exhaustedVm_pmd,
    Or.inl exhaustedVm_outOfFrames⟩⟩

theorem mapPage_not_clean_exhausted : ¬ FailsCleanly exhaustedVm 0x40202000 0x5000 :=
  mapPage_not_clean exhaustedVm_runsOut 0x5000

/-- What the call leaves: the page at address 0 cleared, linked and filled with one leaf. -/
def clearedMemory : Memory :=
  setEntry (setEntry (fill exhaustedVm.mem 0 0x1000 0) 0x202000 1 3) 0 2 0x5083

theorem mapPage_exhaustedVm :
    ∃ pool, mapPage exhaustedVm 0x40202000 0x5000 = some ⟨clearedMemory, pool, exhaustedVm.pml⟩ := by
  obtain ⟨pool, hlast⟩ := nextTable_of_outOfFrames exhaustedVm_outOfFrames
  have hindices : tableIndices 0x40202000 = [0, 1, 1] := by decide
  have hleaf : entry (setEntry (fill exhaustedVm.mem 0 0x1000 0) 0x202000 1 3) 0 2 &&& PRESENT = 0 := by
    decide +kernel
  refine ⟨pool, ?_⟩
  rw [mapPage_eq, lastTable, hindices]
  simp only [descend, exhaustedVm_pud, exhaustedVm_pmd, hlast, Option.bind_eq_bind, Option.bind_some,
    Option.map_some]
  rw [setLeaf, show ptIndex 0x40202000 = 2 by decide, if_pos hleaf]
  rfl

/-- In it `0x40202000` is mapped, which it was not before. -/
theorem mapPage_exhausted_links_page_zero :
    mapPage startedVm 0x40000000 0x40000000 = some exhaustedVm ∧
      FramesRunOut exhaustedVm 0x40202000 ∧ ¬ FailsCleanly exhaustedVm 0x40202000 0x5000 := by
  refine ⟨mapPage_startedVm, exhaustedVm_runsOut, fun hclean => ?_⟩
  obtain ⟨s', hmap, hsame⟩ := hclean.translations
  obtain ⟨pool, hcleared⟩ := mapPage_exhaustedVm
  rw [hcleared] at hmap
  obtain rfl := Option.some.inj hmap
  have hbefore : walk exhaustedVm.mem exhaustedVm.pml 0x40202000 = none := by
    have hpud : target exhaustedVm.mem exhaustedVm.pml (pml4Index 0x40202000) = some 0x201000 := by
      decide +kernel
    have hpmd : target exhaustedVm.mem 0x201000 (pudIndex 0x40202000) = some 0x202000 := by
      decide +kernel
    have hpt : target exhaustedVm.mem 0x202000 (pmdIndex 0x40202000) = none := by decide +kernel
    simp only [walk, hpud, hpmd, hpt, Option.bind_eq_bind, Option.bind_some, Option.bind_none]
  have hafter : walk clearedMemory exhaustedVm.pml 0x40202000 = some 0x5000 := by
    have hpud : target clearedMemory exhaustedVm.pml (pml4Index 0x40202000) = some 0x201000 := by
      decide +kernel
    have hpmd : target clearedMemory 0x201000 (pudIndex 0x40202000) = some 0x202000 := by
      decide +kernel
    have hpt : target clearedMemory 0x202000 (pmdIndex 0x40202000) = some 0 := by decide +kernel
    have hleaf : target clearedMemory 0 (ptIndex 0x40202000) = some 0x5000 := by decide +kernel
    simp only [walk, hpud, hpmd, hpt, hleaf, Option.bind_eq_bind, Option.bind_some]
  have hboth := hsame 0x40202000
  rw [hbefore, hafter] at hboth
  cases hboth

end PaskakasaOS.Kernel.Memory.Exhaustion
