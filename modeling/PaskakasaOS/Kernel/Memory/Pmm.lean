import Mathlib.Data.List.Basic
import Mathlib.Data.Vector.Basic

/-!
# The frame pool of `kernel/memory/pmm.c`

`pmm_allocate` scans the 100-entry bitmap below the page count of the pool. The
page count comes from firmware and the C loop does not compare its index with
100, so the model keeps the access past the end apart from the two outcomes the
function has in C.
-/
namespace PaskakasaOS.Kernel.Memory.Pmm

def PAGESIZE : Nat := 4096

structure Pool where
  base : Nat
  length : Nat
  pages : Nat
  bitmap : Vector UInt8 100
  deriving DecidableEq

inductive Scan where
  | found (i : Nat)
  | exhausted
  | outOfBounds
  deriving DecidableEq

/-- The `for` loop of `pmm_allocate` from index `i`, with the bitmap entries from `i` on. -/
def scan (pages : Nat) : List UInt8 → Nat → Scan
  | [], i => if i < pages then .outOfBounds else .exhausted
  | bit :: bits, i =>
    if i < pages then
      if bit = 0x0 then .found i else scan pages bits (i + 1)
    else .exhausted

/-- `pmm_allocate`: the frame address, 0 when every page is taken, `none` when
the scan reads the bitmap past its end. -/
def pmmAllocate (pool : Pool) : Option (Nat × Pool) :=
  match scan pool.pages pool.bitmap.toList 0 with
  | .found i =>
    some ((pool.base + i * PAGESIZE) % 2 ^ 64,
      { pool with bitmap := pool.bitmap.setIfInBounds i 0x1 })
  | .exhausted => some (0, pool)
  | .outOfBounds => none

/-- Page `j` of the pool can still be handed out. -/
def IsFree (pool : Pool) (j : Nat) : Prop :=
  j < pool.pages ∧ pool.bitmap.toList[j]? = some 0

/-- How many pages the bitmap can still hand out. -/
def freeFrames (pool : Pool) : Nat :=
  (pool.bitmap.toList.take pool.pages).count 0

/-- The pages of the pool are page frames: aligned, and within the 52 address
bits a page-table entry can hold. -/
structure Framed (pool : Pool) : Prop where
  aligned : pool.base % PAGESIZE = 0
  physical : pool.base + PAGESIZE * min pool.pages 100 ≤ 2 ^ 52

/-- The frame number of page `j`. -/
def frameNumber (pool : Pool) (j : Nat) : Nat := pool.base / PAGESIZE + j

theorem scan_of_free {pages i : Nat} {bits : List UInt8}
    (h : 0 < (bits.take (pages - i)).count 0) :
    ∃ k, scan pages bits i = .found (i + k) ∧ i + k < pages ∧ bits[k]? = some 0 ∧
      ((bits.set k 1).take (pages - i)).count 0 + 1 = (bits.take (pages - i)).count 0 := by
  induction bits generalizing i with
  | nil => simp at h
  | cons bit bits ih =>
    by_cases hi : i < pages
    · obtain ⟨n, hn⟩ : ∃ n, pages - i = n + 1 := ⟨pages - i - 1, by omega⟩
      by_cases hbit : bit = 0
      · subst hbit
        refine ⟨0, by simp [scan, hi], by omega, rfl, ?_⟩
        simp [hn]
      · rw [hn, List.take_succ_cons, List.count_cons_of_ne hbit] at h
        have hn' : pages - (i + 1) = n := by omega
        obtain ⟨k, hk, hlt, hget, hcount⟩ := ih (i := i + 1) (by rwa [hn'])
        refine ⟨k + 1, ?_, by omega, by simpa using hget, ?_⟩
        · rw [scan, if_pos hi, if_neg hbit, hk]
          congr 1
          omega
        · rw [hn, List.set_cons_succ, List.take_succ_cons, List.take_succ_cons,
            List.count_cons_of_ne hbit, List.count_cons_of_ne hbit]
          rwa [hn'] at hcount
    · rw [show pages - i = 0 by omega] at h
      simp at h

/-- The scan stops at the first clear entry. -/
theorem scan_found {pages i n : Nat} {bits : List UInt8} (h : scan pages bits i = .found n) :
    ∃ k, n = i + k ∧ n < pages ∧ bits[k]? = some 0 ∧ ∀ j < k, bits[j]? ≠ some 0 := by
  induction bits generalizing i with
  | nil =>
    rw [scan] at h
    split at h <;> cases h
  | cons bit bits ih =>
    rw [scan] at h
    split_ifs at h with hi hbit
    · obtain rfl := Scan.found.inj h
      exact ⟨0, rfl, hi, congrArg some hbit, fun j hj => absurd hj (Nat.not_lt_zero j)⟩
    · obtain ⟨k, rfl, hlt, hget, hbefore⟩ := ih h
      refine ⟨k + 1, by omega, hlt, hget, fun j hj => ?_⟩
      cases j with
      | zero => exact fun heq => hbit (Option.some.inj heq)
      | succ j => exact hbefore j (Nat.lt_of_succ_lt_succ hj)

/-- Marking a page takes it and no other. -/
theorem isFree_mark {pool : Pool} {j : Nat} (hj : IsFree pool j) (k : Nat) :
    IsFree { pool with bitmap := pool.bitmap.setIfInBounds j 1 } k ↔ IsFree pool k ∧ k ≠ j := by
  have hlist : (pool.bitmap.setIfInBounds j 1).toList = pool.bitmap.toList.set j 1 :=
    Vector.toList_setIfInBounds
  simp only [IsFree, hlist, List.getElem?_set]
  by_cases hk : j = k
  · subst hk
    simp [hj.2]
  · simp [hk, Ne.symm hk]

/-- With a free page left, `pmm_allocate` marks the first free page and returns it. -/
theorem pmmAllocate_first {pool : Pool} (h : 0 < freeFrames pool) :
    ∃ j pool', pmmAllocate pool = some ((pool.base + j * PAGESIZE) % 2 ^ 64, pool') ∧
      IsFree pool j ∧ (∀ k < j, ¬ IsFree pool k) ∧ (∀ k, IsFree pool' k ↔ IsFree pool k ∧ k ≠ j) ∧
      freeFrames pool' + 1 = freeFrames pool ∧
      pool'.base = pool.base ∧ pool'.pages = pool.pages := by
  have hcount0 : 0 < (pool.bitmap.toList.take (pool.pages - 0)).count 0 := h
  obtain ⟨j, hscan, hlt, hget, hcount⟩ := scan_of_free hcount0
  rw [Nat.zero_add] at hscan hlt
  obtain ⟨k, hk, _, _, hbefore⟩ := scan_found hscan
  obtain rfl : j = k := by omega
  refine ⟨j, { pool with bitmap := pool.bitmap.setIfInBounds j 1 }, ?_, ⟨hlt, hget⟩, ?_,
    isFree_mark ⟨hlt, hget⟩, ?_, rfl, rfl⟩
  · simp only [pmmAllocate, hscan]
  · exact fun i hi hfree => hbefore i hi hfree.2
  · simpa [freeFrames, Vector.toList_setIfInBounds] using hcount

/-- With a free page left, `pmm_allocate` marks one free page and returns it. -/
theorem pmmAllocate_of_free {pool : Pool} (h : 0 < freeFrames pool) :
    ∃ j pool', pmmAllocate pool = some ((pool.base + j * PAGESIZE) % 2 ^ 64, pool') ∧
      IsFree pool j ∧ (∀ k, IsFree pool' k ↔ IsFree pool k ∧ k ≠ j) ∧
      freeFrames pool' + 1 = freeFrames pool ∧
      pool'.base = pool.base ∧ pool'.pages = pool.pages := by
  obtain ⟨j, pool', ha, hj, _, hrest⟩ := pmmAllocate_first h
  exact ⟨j, pool', ha, hj, hrest⟩

/-- A pool no frame was taken from. -/
theorem freeFrames_fresh {pool : Pool} (h : pool.bitmap = Vector.replicate 100 0) :
    freeFrames pool = min pool.pages 100 := by
  rw [freeFrames, h, Vector.toList_replicate, List.take_replicate, List.count_replicate_self]

/-- No page below `k` can be handed out any more. -/
def Taken (pool : Pool) (k : Nat) : Prop := ∀ i < k, ¬ IsFree pool i

/-- The pool after calls of `pmm_allocate`, whoever made them. -/
structure Later (pool pool' : Pool) : Prop where
  base : pool'.base = pool.base
  pages : pool'.pages = pool.pages
  free : ∀ k, IsFree pool' k → IsFree pool k

theorem Later.refl (pool : Pool) : Later pool pool := ⟨rfl, rfl, fun _ h => h⟩

theorem Later.trans {pool pool' pool'' : Pool} (h : Later pool pool') (h' : Later pool' pool'') :
    Later pool pool'' :=
  ⟨h'.base.trans h.base, h'.pages.trans h.pages, fun k hk => h.free k (h'.free k hk)⟩

theorem Later.taken {pool pool' : Pool} {k : Nat} (h : Later pool pool') (hk : Taken pool k) :
    Taken pool' k :=
  fun i hi hfree => hk i hi (h.free i hfree)

/-- A call answers 0 and leaves the pool alone, or hands out a free page. -/
theorem pmmAllocate_cases {pool pool' : Pool} {frame : Nat} (h : pmmAllocate pool = some (frame, pool')) :
    (frame = 0 ∧ pool' = pool) ∨
      ∃ j, IsFree pool j ∧ frame = (pool.base + j * PAGESIZE) % 2 ^ 64 ∧ Later pool pool' ∧
        ¬ IsFree pool' j := by
  rw [pmmAllocate] at h
  split at h
  · next j hscan =>
    obtain ⟨rfl, rfl⟩ := Prod.mk.inj (Option.some.inj h)
    obtain ⟨k, hk, hlt, hget, _⟩ := scan_found hscan
    obtain rfl : j = k := by omega
    have hmark := isFree_mark ⟨hlt, hget⟩
    exact Or.inr ⟨j, ⟨hlt, hget⟩, rfl, ⟨rfl, rfl, fun i hi => ((hmark i).mp hi).1⟩,
      fun hj => ((hmark j).mp hj).2 rfl⟩
  · obtain ⟨rfl, rfl⟩ := Prod.mk.inj (Option.some.inj h)
    exact Or.inl ⟨rfl, rfl⟩
  · cases h

theorem pmmAllocate_later {pool pool' : Pool} {frame : Nat} (h : pmmAllocate pool = some (frame, pool')) :
    Later pool pool' := by
  rcases pmmAllocate_cases h with ⟨_, rfl⟩ | ⟨_, _, _, hlater, _⟩
  · exact Later.refl _
  · exact hlater

/-- The pool with another number of pages. -/
def Pool.resize (pool : Pool) (n : Nat) : Pool := { pool with pages := n }

theorem scan_resize {pages n i k : Nat} {bits : List UInt8} (hn : pages ≤ n)
    (h : scan pages bits i = .found k) : scan n bits i = .found k := by
  induction bits generalizing i with
  | nil =>
    rw [scan] at h
    split at h <;> cases h
  | cons bit bits ih =>
    rw [scan] at h ⊢
    split_ifs at h with hi hbit
    · rw [if_pos (by omega), if_pos hbit, h]
    · rw [if_pos (by omega), if_neg hbit]
      exact ih h

/-- As long as a page is left, those behind the last one make no difference. -/
theorem pmmAllocate_resize {pool pool' : Pool} {frame n : Nat} (hfree : 0 < freeFrames pool)
    (hn : pool.pages ≤ n) (h : pmmAllocate pool = some (frame, pool')) :
    pmmAllocate (pool.resize n) = some (frame, pool'.resize n) := by
  have hcount : 0 < (pool.bitmap.toList.take (pool.pages - 0)).count 0 := hfree
  obtain ⟨k, hscan, _⟩ := scan_of_free hcount
  have hwide : scan n pool.bitmap.toList 0 = .found (0 + k) := scan_resize hn hscan
  rw [pmmAllocate, hscan] at h
  obtain ⟨rfl, rfl⟩ := Prod.mk.inj (Option.some.inj h)
  simp only [pmmAllocate, Pool.resize, hwide]

theorem IsFree.lt_bitmap {pool : Pool} {j : Nat} (h : IsFree pool j) : j < 100 := by
  obtain ⟨hlt, _⟩ := List.getElem?_eq_some_iff.mp h.2
  simpa using hlt

/-- No frame is left exactly when no page is free. -/
theorem freeFrames_eq_zero {pool : Pool} : freeFrames pool = 0 ↔ ∀ j, ¬ IsFree pool j := by
  constructor
  · intro hzero j hj
    have hmem : (0 : UInt8) ∈ pool.bitmap.toList.take pool.pages := by
      apply List.mem_of_getElem? (i := j)
      rw [List.getElem?_take_of_lt hj.1, hj.2]
    have hpos := List.count_pos_iff.mpr hmem
    rw [freeFrames] at hzero
    omega
  · intro hnone
    by_contra hpos
    obtain ⟨j, _, _, hj, _⟩ := pmmAllocate_first (Nat.pos_of_ne_zero hpos)
    exact hnone j hj

theorem Later.empty {pool pool' : Pool} (h : Later pool pool') (hempty : freeFrames pool = 0) :
    freeFrames pool' = 0 := by
  rw [freeFrames_eq_zero] at hempty ⊢
  exact fun j hj => hempty j (h.free j hj)

theorem scan_exhausted {pages i : Nat} {bits : List UInt8} (h : scan pages bits i = .exhausted) :
    pages ≤ i + bits.length := by
  induction bits generalizing i with
  | nil =>
    rw [scan] at h
    split at h
    · cases h
    · exact Nat.le_of_not_lt ‹_›
  | cons bit bits ih =>
    rw [scan] at h
    rw [List.length_cons]
    split_ifs at h with hi hbit
    · have := ih h
      omega
    · omega

theorem scan_inBounds {pages i : Nat} {bits : List UInt8} (h : pages ≤ i + bits.length) :
    scan pages bits i ≠ .outOfBounds := by
  induction bits generalizing i with
  | nil =>
    rw [scan, if_neg (by simpa using h)]
    simp
  | cons bit bits ih =>
    rw [List.length_cons] at h
    rw [scan]
    split_ifs
    · simp
    · exact ih (by omega)
    · simp

/-- Without a free page it answers 0, and only as long as the bitmap covers the pool. -/
theorem pmmAllocate_empty {pool pool' : Pool} {frame : Nat} (hempty : freeFrames pool = 0)
    (h : pmmAllocate pool = some (frame, pool')) :
    frame = 0 ∧ pool' = pool ∧ pool.pages ≤ 100 := by
  rw [freeFrames_eq_zero] at hempty
  rcases pmmAllocate_cases h with hzero | ⟨j, hj, _⟩
  · refine ⟨hzero.1, hzero.2, ?_⟩
    rw [pmmAllocate] at h
    split at h
    · next j hscan =>
      obtain ⟨k, hk, hlt, hget, _⟩ := scan_found hscan
      obtain rfl : j = k := by omega
      exact absurd ⟨hlt, hget⟩ (hempty j)
    · next hscan => simpa using scan_exhausted hscan
    · cases h
  · exact absurd hj (hempty j)

theorem pmmAllocate_isSome {pool : Pool} (h : pool.pages ≤ 100) :
    ∃ frame pool', pmmAllocate pool = some (frame, pool') := by
  have hbounds : scan pool.pages pool.bitmap.toList 0 ≠ .outOfBounds :=
    scan_inBounds (by simpa using h)
  rw [pmmAllocate]
  split
  · exact ⟨_, _, rfl⟩
  · exact ⟨_, _, rfl⟩
  · contradiction

/-- The first page that can be handed out, when there is one. -/
def firstFree (pool : Pool) : Nat := pool.bitmap.toList.findIdx (· == 0)

theorem firstFree_spec {pool : Pool} (h : 0 < freeFrames pool) :
    IsFree pool (firstFree pool) ∧ Taken pool (firstFree pool) := by
  obtain ⟨j, _, _, hj, hbefore, _⟩ := pmmAllocate_first h
  have hfirst : firstFree pool = j := by
    rw [firstFree, List.findIdx_eq (by simpa using hj.lt_bitmap)]
    obtain ⟨hlt, hget⟩ := List.getElem?_eq_some_iff.mp hj.2
    refine ⟨by simp [hget], fun k hk => ?_⟩
    have hk' : ¬ IsFree pool k := hbefore k hk
    simpa [IsFree, hk.trans hj.1, List.getElem?_eq_getElem (hk.trans hlt)] using hk'
  exact hfirst ▸ ⟨hj, hbefore⟩

theorem Later.framed {pool pool' : Pool} (h : Later pool pool') (hf : Framed pool) : Framed pool' :=
  ⟨h.base ▸ hf.aligned, h.base ▸ h.pages ▸ hf.physical⟩

theorem Later.number {pool pool' : Pool} (h : Later pool pool') (j : Nat) :
    frameNumber pool' j = frameNumber pool j := by
  rw [frameNumber, frameNumber, h.base]

theorem Framed.resize {pool : Pool} {n : Nat} (hf : Framed pool) (hn : n ≤ pool.pages) :
    Framed (pool.resize n) := by
  have hphys := hf.physical
  refine ⟨hf.aligned, ?_⟩
  show pool.base + PAGESIZE * min n 100 ≤ 2 ^ 52
  rw [PAGESIZE] at *
  omega

/-- The address `pmm_allocate` forms for page `j` is that of its frame number. -/
theorem Framed.address {pool : Pool} (hf : Framed pool) {j : Nat} (hj : IsFree pool j) :
    (pool.base + j * PAGESIZE) % 2 ^ 64 = PAGESIZE * frameNumber pool j ∧
      frameNumber pool j < 2 ^ 40 := by
  have hj100 := hj.lt_bitmap
  have hpages := hj.1
  have hal := hf.aligned
  have hphys := hf.physical
  simp only [PAGESIZE, frameNumber] at *
  omega

/-- The first free page is the one that is handed out next. -/
theorem pmmAllocate_at {pool : Pool} {k : Nat} (hf : Framed pool) (hk : IsFree pool k)
    (ht : Taken pool k) :
    ∃ pool', pmmAllocate pool = some (PAGESIZE * frameNumber pool k, pool') ∧
      (∀ l, IsFree pool' l ↔ IsFree pool l ∧ l ≠ k) ∧ freeFrames pool' + 1 = freeFrames pool := by
  have hpos : 0 < freeFrames pool :=
    Nat.pos_of_ne_zero fun hzero => freeFrames_eq_zero.mp hzero k hk
  obtain ⟨j, pool', ha, hj, hbefore, hmark, hcount, _⟩ := pmmAllocate_first hpos
  have hjk : j = k := by
    rcases Nat.lt_trichotomy j k with hlt | heq | hlt
    · exact absurd hj (ht j hlt)
    · exact heq
    · exact absurd hk (hbefore k hlt)
  subst hjk
  exact ⟨pool', (hf.address hj).1 ▸ ha, hmark, hcount⟩

end PaskakasaOS.Kernel.Memory.Pmm
