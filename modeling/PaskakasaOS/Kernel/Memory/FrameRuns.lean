import PaskakasaOS.Kernel.Memory.PoolSelection

/-!
# Runs of `pmm_allocate` on a pool of `init_pmm`

The pages are handed out in order, so after any number of calls the bitmap is a
run of set entries followed by clear ones. A pool of more than 100 pages makes
the 101st call read past the bitmap.
-/
namespace PaskakasaOS.Kernel.Memory.FrameRuns

open Lib.ByteMemory Pmm InitPmm PoolSelection

/-- `n` calls one after another: their results and the pool they leave. -/
def allocations : Nat → Pool → Option (List Nat × Pool)
  | 0, pool => some ([], pool)
  | n + 1, pool => do
    let (results, pool) ← allocations n pool
    let (ret, pool) ← pmmAllocate pool
    some (results ++ [ret], pool)

/-- The address `pmm_allocate` computes for page `j`. -/
def pageAddress (pool : Pool) (j : Nat) : Nat := (pool.base + j * PAGESIZE) % 2 ^ 64

/-- What the results of a run must satisfy. -/
structure SafeResults (pool : Pool) (results : List Nat) : Prop where
  distinct : (results.filter (· ≠ 0)).Nodup
  page : ∀ ret ∈ results, ret ≠ 0 → ∃ j, j < pool.pages ∧ ret = pageAddress pool j
  exhausted : ∀ i, results[i]? = some 0 →
    ∀ j, j < pool.pages → pageAddress pool j ∈ results.take i

/-- The calls read the bitmap inside its bounds, with results as they must be. -/
def SafeRun (pool : Pool) (n : Nat) : Prop :=
  ∃ results pool', allocations n pool = some (results, pool') ∧ SafeResults pool results

/-- The first `k` pages are handed out and no others. -/
structure Marked (pool : Pool) (k : Nat) : Prop where
  inBitmap : k ≤ 100
  bitmap : pool.bitmap.toList = List.replicate k 1 ++ List.replicate (100 - k) 0

theorem marked_initPmm (kernel : KernelImage) (m : Memory) (e820map : Nat) (g : Globals) :
    Marked (initPmm kernel m e820map g).pool 0 where
  inBitmap := Nat.zero_le _
  bitmap := by
    rw [initPmm]
    exact Vector.toList_replicate

/-! ## One call -/

theorem scan_marked (pages a b i : Nat) :
    scan pages (List.replicate a 1 ++ List.replicate b 0) i =
      if i + a < pages then (if b = 0 then .outOfBounds else .found (i + a)) else .exhausted := by
  induction a generalizing i with
  | zero =>
    cases b with
    | zero => simp [scan]
    | succ b => simp [scan, List.replicate_succ]
  | succ a ih =>
    rw [List.replicate_succ, List.cons_append, scan, ih, show i + 1 + a = i + (a + 1) by omega]
    by_cases hi : i < pages
    · rw [if_pos hi, if_neg (by decide)]
    · rw [if_neg hi, if_neg (by omega)]

section Call

variable {pool : Pool} {k : Nat}

theorem pmmAllocate_page (h : Marked pool k) (hpages : k < pool.pages) (hk : k < 100) :
    ∃ pool', pmmAllocate pool = some (pageAddress pool k, pool') ∧ Marked pool' (k + 1) ∧
      pool'.base = pool.base ∧ pool'.pages = pool.pages := by
  have hscan : scan pool.pages pool.bitmap.toList 0 = .found k := by
    rw [h.bitmap, scan_marked, if_pos (by omega), if_neg (by omega), Nat.zero_add]
  refine ⟨{ pool with bitmap := pool.bitmap.setIfInBounds k 0x1 }, ?_, ⟨hk, ?_⟩, rfl, rfl⟩
  · rw [pmmAllocate, hscan]
    rfl
  · rw [Vector.toList_setIfInBounds, h.bitmap,
      List.set_append_right _ _ (by rw [List.length_replicate]), List.length_replicate,
      Nat.sub_self, show 100 - k = 100 - (k + 1) + 1 by omega, List.replicate_succ,
      List.set_cons_zero, List.replicate_succ', List.append_assoc]
    rfl

theorem pmmAllocate_past_bitmap (h : Marked pool 100) (hpages : 100 < pool.pages) :
    pmmAllocate pool = none := by
  have hscan : scan pool.pages pool.bitmap.toList 0 = .outOfBounds := by
    rw [h.bitmap, scan_marked, if_pos (by omega), if_pos rfl]
  rw [pmmAllocate, hscan]

theorem pmmAllocate_exhausted (h : Marked pool k) (hpages : pool.pages ≤ k) :
    pmmAllocate pool = some (0, pool) := by
  have hscan : scan pool.pages pool.bitmap.toList 0 = .exhausted := by
    rw [h.bitmap, scan_marked, if_neg (by omega)]
  rw [pmmAllocate, hscan]

theorem Marked.taken {pool' : Pool} {ret : Nat} (h : Marked pool k)
    (ha : pmmAllocate pool = some (ret, pool')) : ∃ k', Marked pool' k' := by
  by_cases hpages : k < pool.pages
  · by_cases hk : k < 100
    · obtain ⟨pool'', hcall, hmarked, _⟩ := pmmAllocate_page h hpages hk
      rw [ha] at hcall
      obtain ⟨_, rfl⟩ := Prod.mk.inj (Option.some.inj hcall)
      exact ⟨k + 1, hmarked⟩
    · have hfull := h.inBitmap
      obtain rfl : k = 100 := by omega
      rw [pmmAllocate_past_bitmap h hpages] at ha
      cases ha
  · rw [pmmAllocate_exhausted h (by omega)] at ha
    obtain ⟨_, rfl⟩ := Prod.mk.inj (Option.some.inj ha)
    exact ⟨k, h⟩

end Call

/-! ## The frames that are left -/

section Left

variable {pool : Pool} {k : Nat}

theorem Marked.isFree_iff {j : Nat} (h : Marked pool k) :
    IsFree pool j ↔ j < pool.pages ∧ k ≤ j ∧ j < 100 := by
  have hbitmap := h.inBitmap
  rw [IsFree, h.bitmap]
  refine and_congr_right fun _ => ?_
  by_cases hj : j < k
  · rw [List.getElem?_append_left (by simpa using hj), List.getElem?_replicate, if_pos hj]
    exact iff_of_false (by decide) (by omega)
  · rw [List.getElem?_append_right (by simpa using hj), List.length_replicate, List.getElem?_replicate]
    by_cases hend : j < 100
    · rw [if_pos (by omega)]
      exact iff_of_true rfl (by omega)
    · rw [if_neg (by omega)]
      exact iff_of_false (by simp) (by omega)

theorem Marked.freeFrames_eq (h : Marked pool k) : freeFrames pool = min pool.pages 100 - k := by
  have hbitmap := h.inBitmap
  rw [freeFrames, h.bitmap, List.take_append, List.take_replicate, List.take_replicate,
    List.count_append, List.count_replicate, List.count_replicate_self, List.length_replicate,
    if_neg (by decide)]
  omega

theorem Marked.firstFree_eq (h : Marked pool k) (hleft : 0 < freeFrames pool) : firstFree pool = k := by
  have hcount := h.freeFrames_eq
  obtain ⟨hfirst, htaken⟩ := firstFree_spec hleft
  refine Nat.le_antisymm ?_ (h.isFree_iff.mp hfirst).2.1
  by_contra hlt
  exact htaken k (by omega) (h.isFree_iff.mpr (by omega))

end Left

/-! ## Runs -/

section Run

variable {pool : Pool}

/-- The results of `n` calls that stay inside the bitmap. -/
def results (pool : Pool) (n : Nat) : List Nat :=
  (List.range n).map (fun j => if j < pool.pages then pageAddress pool j else 0)

theorem results_succ (pool : Pool) (n : Nat) :
    results pool (n + 1) =
      results pool n ++ [if n < pool.pages then pageAddress pool n else 0] := by
  simp [results, List.range_succ]

theorem allocations_spec (h : Marked pool 0) {n : Nat} (hn : pool.pages ≤ 100 ∨ n ≤ 100) :
    ∃ pool', allocations n pool = some (results pool n, pool') ∧
      Marked pool' (min n pool.pages) ∧ pool'.base = pool.base ∧ pool'.pages = pool.pages := by
  induction n with
  | zero => exact ⟨pool, rfl, by rwa [Nat.zero_min], rfl, rfl⟩
  | succ n ih =>
    obtain ⟨pool', hrun, hmarked, hbase, hpages⟩ := ih (by omega)
    rw [results_succ]
    by_cases hlt : n < pool.pages
    · rw [Nat.min_eq_left hlt.le] at hmarked
      obtain ⟨pool'', hcall, hmarked', hbase', hpages'⟩ :=
        pmmAllocate_page hmarked (by omega) (by omega)
      refine ⟨pool'', ?_, ?_, hbase'.trans hbase, hpages'.trans hpages⟩
      · have haddress : pageAddress pool' n = pageAddress pool n := by
          rw [pageAddress, pageAddress, hbase]
        simp [allocations, hrun, hcall, haddress, hlt]
      · rwa [Nat.min_eq_left hlt]
    · rw [Nat.min_eq_right (by omega)] at hmarked
      have hcall := pmmAllocate_exhausted hmarked hpages.le
      refine ⟨pool', ?_, ?_, hbase, hpages⟩
      · simp [allocations, hrun, hcall, hlt]
      · rwa [Nat.min_eq_right (by omega)]

theorem allocations_past_bitmap (h : Marked pool 0) {n : Nat} (hpages : 100 < pool.pages)
    (hn : 100 < n) : allocations n pool = none := by
  induction n with
  | zero => omega
  | succ n ih =>
    by_cases hlast : n = 100
    · obtain ⟨pool', hrun, hmarked, _, hpages'⟩ := allocations_spec h (n := 100) (by omega)
      rw [Nat.min_eq_left hpages.le] at hmarked
      have hcall := pmmAllocate_past_bitmap hmarked (by omega)
      simp [hlast, allocations, hrun, hcall]
    · simp [allocations, ih (by omega)]

/-- The pages of the bitmap have different addresses. -/
theorem pageAddress_inj {i j : Nat} (hi : i < 100) (hj : j < 100)
    (h : pageAddress pool i = pageAddress pool j) : i = j := by
  simp only [pageAddress, PAGESIZE] at h
  omega

theorem results_getElem? {n i : Nat} (hi : i < n) :
    (results pool n)[i]? = some (if i < pool.pages then pageAddress pool i else 0) := by
  simp [results, hi]

theorem mem_results {n ret : Nat} (h : ret ∈ results pool n) (hret : ret ≠ 0) :
    ∃ j, j < min n pool.pages ∧ ret = pageAddress pool j := by
  simp only [results, List.mem_map, List.mem_range] at h
  obtain ⟨j, hj, rfl⟩ := h
  by_cases hpages : j < pool.pages
  · exact ⟨j, by omega, if_pos hpages⟩
  · exact absurd (if_neg hpages) hret

theorem mem_take_results {n i j : Nat} (hj : j < i) (hi : i ≤ n) (hpages : j < pool.pages) :
    pageAddress pool j ∈ (results pool n).take i := by
  apply List.mem_of_getElem? (i := j)
  rw [List.getElem?_take_of_lt hj, results_getElem? (by omega), if_pos hpages]

/-- The non-zero results are the pages handed out, in order. -/
theorem filter_results_nodup {n : Nat} (hn : min n pool.pages ≤ 100) :
    ((results pool n).filter (· ≠ 0)).Nodup := by
  induction n with
  | zero => exact List.nodup_nil
  | succ n ih =>
    rw [results_succ, List.filter_append]
    by_cases hlt : n < pool.pages
    · rw [if_pos hlt]
      by_cases hzero : pageAddress pool n = 0
      · simpa [hzero] using ih (by omega)
      · rw [List.filter_singleton]
        simp only [hzero, ne_eq, not_false_eq_true, decide_true, cond_true]
        refine (ih (by omega)).append (List.nodup_singleton _) ?_
        intro ret hmem hlast
        rw [List.mem_singleton] at hlast
        rw [List.mem_filter] at hmem
        obtain ⟨j, hj, hret⟩ := mem_results hmem.1 (by simpa using hmem.2)
        have := pageAddress_inj (by omega) (by omega) (hret.symm.trans hlast)
        omega
    · rw [if_neg hlt]
      simpa using ih (by omega)

theorem safeResults {n : Nat} (hn : pool.pages ≤ 100 ∨ n ≤ 100)
    (hzero : ∀ j, j < min n pool.pages → pageAddress pool j ≠ 0) :
    SafeResults pool (results pool n) where
  distinct := filter_results_nodup (by omega)
  page := by
    intro ret hmem hret
    obtain ⟨j, hj, heq⟩ := mem_results hmem hret
    exact ⟨j, by omega, heq⟩
  exhausted := by
    intro i hi j hj
    have hlt : i < n := by
      have hlength := (List.getElem?_eq_some_iff.mp hi).1
      simpa [results] using hlength
    rw [results_getElem? hlt] at hi
    by_cases hpages : i < pool.pages
    · rw [if_pos hpages] at hi
      exact absurd (Option.some.inj hi) (hzero i (by omega))
    · exact mem_take_results (by omega) hlt.le hj

/-- A page at address zero is returned before it was handed out. -/
theorem pageAddress_ne_zero {n : Nat} (hn : pool.pages ≤ 100 ∨ n ≤ 100)
    (h : SafeResults pool (results pool n)) {j : Nat} (hj : j < min n pool.pages) :
    pageAddress pool j ≠ 0 := by
  intro hzero
  have hresult : (results pool n)[j]? = some 0 := by
    rw [results_getElem? (by omega), if_pos (by omega), hzero]
  have hbefore := h.exhausted j hresult j (by omega)
  obtain ⟨i, hi⟩ := List.mem_iff_getElem?.mp hbefore
  have hij : i < j := by
    have hlength := (List.getElem?_eq_some_iff.mp hi).1
    rw [List.length_take] at hlength
    omega
  rw [List.getElem?_take_of_lt hij, results_getElem? (by omega), if_pos (by omega)] at hi
  have := pageAddress_inj (by omega) (by omega) (Option.some.inj hi)
  omega

theorem safeRun_iff (h : Marked pool 0) (n : Nat) :
    SafeRun pool n ↔ (pool.pages ≤ 100 ∨ n ≤ 100) ∧
      ∀ j, j < min n pool.pages → pageAddress pool j ≠ 0 := by
  by_cases hn : pool.pages ≤ 100 ∨ n ≤ 100
  · obtain ⟨pool', hrun, _⟩ := allocations_spec h hn
    constructor
    · rintro ⟨rets, pool'', hrun', hsafe⟩
      rw [hrun] at hrun'
      obtain ⟨rfl, rfl⟩ := Prod.mk.inj (Option.some.inj hrun')
      exact ⟨hn, fun j hj => pageAddress_ne_zero hn hsafe hj⟩
    · rintro ⟨_, hzero⟩
      exact ⟨results pool n, pool', hrun, safeResults hn hzero⟩
  · have hnone := allocations_past_bitmap h (n := n) (by omega) (by omega)
    simp [SafeRun, hnone, hn]

end Run

/-- Runs on a pool of `init_pmm` are safe exactly up to the size of the bitmap,
and before a page whose address wraps to zero. -/
theorem initPmm_safeRun_iff (kernel : KernelImage) (m : Memory) (e820map : Nat) (g : Globals)
    (n : Nat) :
    SafeRun (initPmm kernel m e820map g).pool n ↔
      ((initPmm kernel m e820map g).pool.pages ≤ 100 ∨ n ≤ 100) ∧
        ∀ j, j < min n (initPmm kernel m e820map g).pool.pages →
          pageAddress (initPmm kernel m e820map g).pool j ≠ 0 :=
  safeRun_iff (marked_initPmm kernel m e820map g) n

/-- The 101st call on a pool of 126.8 MiB reads `bitmap[100]`. -/
theorem initPmm_not_safeRun :
    ¬ SafeRun (initPmm kernel64K (twoRegions.place (fun _ => 0) 0x9000) 0x9000 zeroGlobals).pool
      101 := by
  have hchosen : chosen (twoRegions.entries.take 50) = some ⟨0x100000, 0x7EE0000, 1, 0⟩ := by decide
  obtain ⟨_, _, hpages⟩ :=
    initPmm_some kernel64K twoRegions (fun _ => 0) 0x9000 zeroGlobals hchosen
  have hmany : 100 < poolLength kernel64K ⟨0x100000, 0x7EE0000, 1, 0⟩ / 0x1000 := by decide
  have hnone := allocations_past_bitmap (marked_initPmm kernel64K
    (twoRegions.place (fun _ => 0) 0x9000) 0x9000 zeroGlobals) (n := 101) (by omega) (by omega)
  rintro ⟨rets, pool, hrun, _⟩
  rw [hnone] at hrun
  exact absurd hrun (by simp)

end PaskakasaOS.Kernel.Memory.FrameRuns
