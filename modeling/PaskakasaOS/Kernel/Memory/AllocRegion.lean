import PaskakasaOS.Kernel.Memory.FrameRuns
import PaskakasaOS.Kernel.Memory.LastFrames
import PaskakasaOS.Kernel.Memory.PageRuns

/-!
# The region that `alloc` returns

`alloc` takes one frame for each page and maps it to itself, but `map_page` takes its
tables from the same pool in between. The frames follow one another only as long as no
table is missing before the last page and no page between them is in use.
-/
namespace PaskakasaOS.Kernel.Memory.AllocRegion

open Lib.ByteMemory Lib.TableTree
open Pmm Vmm VmmTree MapPage AddressSpace LastFrames
open FrameRuns (Marked)

/-! ## The rounds of `alloc` -/

/-- One round: the frame that `alloc` takes for itself, and the state after. -/
def allocPage (s : Vm) : Option (Nat × Vm) := do
  let (frame, pool) ← pmmAllocate s.pool
  let s ← mapPage { s with pool := pool } frame frame
  some (frame, s)

/-- Several rounds, with the frames that `alloc` takes for itself. -/
def allocPages : Nat → Vm → Option (List Nat × Vm)
  | 0, s => some ([], s)
  | n + 1, s => do
    let (frame, s) ← allocPage s
    let (frames, s) ← allocPages n s
    some (frame :: frames, s)

/-- A frame that the walk goes through before the leaf. -/
def IsTable (m : Memory) (pml t : Nat) : Prop :=
  ∃ q : Path, q.length ≤ 3 ∧ follow (tables m) pml q = some t

/-- The `n` pages from `start` are frames of the call, none is a table, and all addresses
in them are mapped to themselves. -/
structure UsableRegion (s : Vm) (frames : List Nat) (start n : Nat) : Prop where
  handed : ∀ i < n, start + PAGESIZE * i ∈ frames
  noTable : ∀ i < n, ¬ IsTable s.mem s.pml (start + PAGESIZE * i)
  mapped : ∀ a, start ≤ a → a < start + PAGESIZE * n → physicalAddress s.mem s.pml a = some a

/-- The call never reads past the bitmap, and a start that is not 0 is that of a usable region. -/
def Usable (s : Vm) (n : UInt32) : Prop :=
  ∃ start frames s', alloc s n = some (start, s') ∧ allocPages n.toNat s = some (frames, s') ∧
    (start ≠ 0 → UsableRegion s' frames start n.toNat)

/-- Page `i` of the region that starts at the first free frame. -/
def page (s : Vm) (i : Nat) : Nat := s.pool.base + PAGESIZE * (firstFree s.pool + i)

/-- `alloc` returns 0, and no call reads past the bitmap. -/
def NoFrames (s : Vm) : Prop := freeFrames s.pool = 0 ∧ s.pool.pages ≤ 100

/-- The state lets `alloc` return `n` pages. One of the tables of the last page may go
without a frame: page 0 takes its place. -/
structure Suits (s : Vm) (n : Nat) : Prop where
  free : ∀ i < n, IsFree s.pool (firstFree s.pool + i)
  tables : ∀ i, i + 1 < n → tablesNeeded s.mem s.pml (page s i) = 0
  frames : n + tablesNeeded s.mem s.pml (page s (n - 1)) ≤
    freeFrames s.pool + (if s.pool.pages ≤ 100 then 1 else 0)
  unmapped : ∀ i < n, walk s.mem s.pml (page s i) = none ∨ walk s.mem s.pml (page s i) = some (page s i)

section Rounds

variable {s s' t : Vm} {m n : Nat} {frames : List Nat}

theorem allocLoop_eq (s : Vm) (n : Nat) : allocLoop s n = (allocPages n s).map Prod.snd := by
  induction n generalizing s with
  | zero => rfl
  | succ n ih =>
    simp only [allocLoop, allocPages, allocPage, Option.bind_eq_bind]
    cases pmmAllocate s.pool with
    | none => rfl
    | some r =>
      simp only [Option.bind_some]
      cases mapPage { s with pool := r.2 } r.1 r.1 with
      | none => rfl
      | some s1 =>
        simp only [Option.bind_some, ih]
        cases allocPages n s1 <;> rfl

/-- `alloc` returns the first of its frames. -/
theorem alloc_eq {n : UInt32} (hn : 1 ≤ n.toNat) :
    alloc s n = (allocPages n.toNat s).map (fun r => (r.1.headD 0, r.2)) := by
  obtain ⟨k, hk⟩ := Nat.exists_eq_add_one.mpr hn
  simp only [alloc, hk, Nat.add_sub_cancel, allocPages, allocPage, allocLoop_eq, Option.bind_eq_bind]
  cases pmmAllocate s.pool with
  | none => rfl
  | some r =>
    simp only [Option.bind_some]
    cases mapPage { s with pool := r.2 } r.1 r.1 with
    | none => rfl
    | some s1 =>
      simp only [Option.bind_some]
      cases allocPages k s1 <;> rfl

theorem allocPage_inv {frame : Nat} (h : allocPage s = some (frame, s')) :
    ∃ pool, pmmAllocate s.pool = some (frame, pool) ∧
      mapPage { s with pool := pool } frame frame = some s' := by
  rw [allocPage] at h
  obtain ⟨⟨frame, pool⟩, ha, h⟩ := Option.bind_eq_some_iff.mp h
  obtain ⟨s1, hmap, h⟩ := Option.bind_eq_some_iff.mp h
  obtain ⟨rfl, rfl⟩ := Prod.mk.inj (Option.some.inj h)
  exact ⟨pool, ha, hmap⟩

theorem allocPages_succ_inv (h : allocPages (n + 1) s = some (frames, s')) :
    ∃ frame t rest, allocPage s = some (frame, t) ∧ allocPages n t = some (rest, s') ∧
      frames = frame :: rest := by
  rw [allocPages] at h
  obtain ⟨⟨frame, t⟩, hpage, h⟩ := Option.bind_eq_some_iff.mp h
  obtain ⟨⟨rest, last⟩, hrest, h⟩ := Option.bind_eq_some_iff.mp h
  obtain ⟨rfl, rfl⟩ := Prod.mk.inj (Option.some.inj h)
  exact ⟨frame, t, rest, hpage, hrest, rfl⟩

theorem allocPages_succ {frame : Nat} (h : allocPage s = some (frame, t)) (n : Nat) :
    allocPages (n + 1) s = (allocPages n t).map (fun r => (frame :: r.1, r.2)) := by
  simp only [allocPages, h, Option.bind_eq_bind, Option.bind_some]
  cases allocPages n t <;> rfl

theorem allocPages_add (h : allocPages m s = some (frames, t)) (n : Nat) :
    allocPages (m + n) s = (allocPages n t).map (fun r => (frames ++ r.1, r.2)) := by
  induction m generalizing s frames with
  | zero =>
    obtain ⟨rfl, rfl⟩ := Prod.mk.inj (Option.some.inj h)
    rw [Nat.zero_add]
    cases allocPages n s <;> rfl
  | succ m ih =>
    obtain ⟨frame, s1, rest, hfirst, hrest, rfl⟩ := allocPages_succ_inv h
    rw [Nat.add_right_comm, allocPages_succ hfirst, ih hrest, Option.map_map]
    rfl

theorem allocPages_snoc {frame : Nat} (h : allocPages m s = some (frames, t))
    (hlast : allocPage t = some (frame, s')) :
    allocPages (m + 1) s = some (frames ++ [frame], s') := by
  rw [allocPages_add h, allocPages_succ hlast]
  rfl

/-- The rounds of a longer run go on where a shorter one ends. -/
theorem allocPages_split {all : List Nat} {k : Nat} (h : allocPages m s = some (frames, t))
    (hall : allocPages (m + (k + 1)) s = some (all, s')) :
    ∃ frame t' rest, allocPage t = some (frame, t') ∧ allocPages k t' = some (rest, s') ∧
      all = frames ++ frame :: rest := by
  rw [allocPages_add h, Option.map_eq_some_iff] at hall
  obtain ⟨⟨later, last⟩, hlater, heq⟩ := hall
  obtain ⟨rfl, rfl⟩ := Prod.mk.inj heq
  obtain ⟨frame, t', rest, hpage, hrest, rfl⟩ := allocPages_succ_inv hlater
  exact ⟨frame, t', rest, hpage, hrest, rfl⟩

/-- What `Usable` says of the rounds. -/
theorem usable_iff_rounds {n : UInt32} (hn : 1 ≤ n.toNat) :
    Usable s n ↔ ∃ frames s', allocPages n.toNat s = some (frames, s') ∧
      (frames.headD 0 ≠ 0 → UsableRegion s' frames (frames.headD 0) n.toNat) := by
  rw [Usable, alloc_eq hn]
  constructor
  · intro h
    obtain ⟨start, frames, s', hstart, hrun, hregion⟩ := h
    rw [hrun, Option.map_some, Option.some.injEq, Prod.mk.injEq] at hstart
    exact ⟨frames, s', hrun, hstart.1 ▸ hregion⟩
  · intro h
    obtain ⟨frames, s', hrun, hregion⟩ := h
    exact ⟨frames.headD 0, frames, s', by rw [hrun, Option.map_some], hrun, hregion⟩

end Rounds

/-! ## What the calls leave of the pool -/

section Pool

variable {s s' : Vm} {f t v p k n : Nat} {q : Path} {frames : List Nat}

/-- A table that is missing costs one of the free frames behind those already taken. -/
theorem descend_takes (hfree : 0 < freeFrames s.pool) (hk : Taken s.pool k)
    (hneed : needs (slot s.mem) f q ≠ 0) (h : descend s (4096 * f) (q.map Fin.val) = some (t, s')) :
    Taken s'.pool (k + 1) := by
  induction q generalizing f with
  | nil => exact absurd rfl hneed
  | cons i q ih =>
    rw [List.map_cons] at h
    obtain ⟨table, s1, hnext, hrest⟩ := descend_cons_inv h
    rcases nextTable_inv hnext with ⟨_, pool, ha, rfl⟩ | ⟨hpresent, rfl, rfl⟩
    · obtain ⟨j, pool', hj', hj, hfirst, hmark, _⟩ := pmmAllocate_first hfree
      rw [ha] at hj'
      obtain ⟨_, rfl⟩ := Prod.mk.inj (Option.some.inj hj')
      refine (descend_onward hrest).later.taken fun l hl hlfree => ?_
      obtain ⟨hold, hne⟩ := (hmark l).mp hlfree
      have hjk : k ≤ j := by
        by_contra hlt
        exact hk j (by omega) hj
      rcases Nat.lt_or_ge l j with hlj | hlj
      · exact hfirst l hlj hold
      · exact hne (by omega)
    · rw [and_present] at hpresent
      have hslot : slot s1.mem f i = some (entry s1.mem (4096 * f) i / 4096 % 2 ^ 40) := by
        rw [slot, decode, if_neg hpresent]
      rw [needs, hslot] at hneed
      rw [and_address_mask] at hrest
      exact ih hneed hrest

theorem mapPage_takes {r : Nat} (hs : TreeInv s r) (hfree : 0 < freeFrames s.pool)
    (hk : Taken s.pool k) (hneed : tablesNeeded s.mem s.pml v ≠ 0) (h : mapPage s v p = some s') :
    Taken s'.pool (k + 1) := by
  obtain ⟨pt, s1, hlast, rfl⟩ := mapPage_inv h
  rw [lastTable_eq hs] at hlast
  rw [hs.root, tablesNeeded_eq_needs] at hneed
  exact (setLeaf_onward s1 pt v p).later.taken (descend_takes hfree hk hneed hlast)

theorem allocPage_later (h : allocPage s = some (f, s')) : Later s.pool s'.pool := by
  obtain ⟨pool, ha, hmap⟩ := allocPage_inv h
  exact (pmmAllocate_later ha).trans (mapPage_onward hmap).later

/-- The frames that `alloc` takes are free ones, or 0. -/
theorem allocPages_free (hf : Framed s.pool) (h : allocPages n s = some (frames, s')) :
    ∀ f ∈ frames, f = 0 ∨ ∃ j, IsFree s.pool j ∧ f = PAGESIZE * frameNumber s.pool j := by
  induction n generalizing s frames with
  | zero =>
    obtain ⟨rfl, rfl⟩ := Prod.mk.inj (Option.some.inj h)
    exact fun f hmem => absurd hmem List.not_mem_nil
  | succ n ih =>
    obtain ⟨frame, s1, rest, hfirst, hrest, rfl⟩ := allocPages_succ_inv h
    have hlater := allocPage_later hfirst
    intro f hmem
    rcases List.mem_cons.mp hmem with rfl | hmem
    · obtain ⟨pool, ha, _⟩ := allocPage_inv hfirst
      rcases pmmAllocate_cases ha with ⟨hzero, _⟩ | ⟨j, hj, haddress, _⟩
      · exact Or.inl hzero
      · exact Or.inr ⟨j, hj, haddress.trans (hf.address hj).1⟩
    · rcases ih (hlater.framed hf) hrest f hmem with hzero | ⟨j, hj, haddress⟩
      · exact Or.inl hzero
      · exact Or.inr ⟨j, hlater.free j hj, by rw [haddress, hlater.number]⟩

end Pool

/-! ## Pages that follow one another -/

section Pages

variable {s t t' : Vm} {r h i j v : Nat}

theorem page_eq (hf : Framed s.pool) (i : Nat) :
    page s i = PAGESIZE * frameNumber s.pool (firstFree s.pool + i) := by
  have hal := hf.aligned
  simp only [page, frameNumber, PAGESIZE] at hal ⊢
  omega

theorem page_number (hf : Framed s.pool) (hi : IsFree s.pool (firstFree s.pool + i)) :
    page s i / 4096 % 2 ^ 40 = frameNumber s.pool (firstFree s.pool + i) := by
  have hlt := (hf.address hi).2
  rw [page_eq hf, PAGESIZE]
  omega

theorem path_page_inj (hf : Framed s.pool) (hi : IsFree s.pool (firstFree s.pool + i))
    (hj : IsFree s.pool (firstFree s.pool + j)) (h : path (page s i) = path (page s j)) : i = j := by
  have hi' := hi.lt_bitmap
  have hj' := hj.lt_bitmap
  rw [PageRuns.path_eq_iff, page_eq hf, page_eq hf, PAGESIZE, frameNumber, frameNumber] at h
  omega

theorem tablesNeeded_congr
    (h : ∀ q : Path, q.length ≤ 3 → follow (slot t.mem) r q = follow (slot s.mem) r q) (v : Nat) :
    tablesNeeded t.mem (4096 * r) v = tablesNeeded s.mem (4096 * r) v := by
  rw [tablesNeeded_eq, tablesNeeded_eq]
  simp only [missing]
  rw [h _ (by simp), h _ (by simp), h _ (by simp)]

/-- From `s` to `t` the first `h` pages were handed out and the first `m` of them mapped, with
no table added. -/
structure Filled (s t : Vm) (r h m : Nat) : Prop where
  rooted : Rooted t r
  later : Later s.pool t.pool
  taken : Taken t.pool (firstFree s.pool + h)
  kept : ∀ k, firstFree s.pool + h ≤ k → IsFree s.pool k → IsFree t.pool k
  frames : freeFrames t.pool + h = freeFrames s.pool
  tables : ∀ q : Path, q.length ≤ 3 → follow (slot t.mem) r q = follow (slot s.mem) r q
  mapped : ∀ i < m, IsFree s.pool (firstFree s.pool + i) → follow (slot t.mem) r (path (page s i)) =
    (follow (slot s.mem) r (path (page s i))).or (some (frameNumber s.pool (firstFree s.pool + i)))
  other : ∀ i, m ≤ i → IsFree s.pool (firstFree s.pool + i) →
    follow (slot t.mem) r (path (page s i)) = follow (slot s.mem) r (path (page s i))

theorem filled_zero (hs : Rooted s r) (hfree : 0 < freeFrames s.pool) : Filled s s r 0 0 where
  rooted := hs
  later := Later.refl _
  taken := (firstFree_spec hfree).2
  kept _ _ hk := hk
  frames := rfl
  tables _ _ := rfl
  mapped i hi _ := absurd hi (Nat.not_lt_zero i)
  other _ _ _ := rfl

theorem Filled.need (hfill : Filled s t r h j) (v : Nat) :
    tablesNeeded t.mem (4096 * r) v = tablesNeeded s.mem (4096 * r) v :=
  tablesNeeded_congr hfill.tables v

/-- The next page is handed out. -/
theorem Filled.take (hfill : Filled s t r h h) (hf : Framed s.pool)
    (hfree : IsFree s.pool (firstFree s.pool + h)) :
    ∃ t', allocPage t = (mapPage t' (page s h) (page s h)).map (fun s' => (page s h, s')) ∧
      Filled s t' r (h + 1) h := by
  have hlater := hfill.later
  obtain ⟨pool, ha, hmark, hcount⟩ :=
    pmmAllocate_at (hlater.framed hf) (hfill.kept _ le_rfl hfree) hfill.taken
  rw [hlater.number, ← page_eq hf] at ha
  refine ⟨{ t with pool := pool }, ?_, hfill.rooted.allocated ha, hlater.trans (pmmAllocate_later ha),
    ?_, ?_, ?_, hfill.tables, hfill.mapped, hfill.other⟩
  · simp only [allocPage, ha, Option.bind_eq_bind, Option.bind_some]
    cases mapPage { t with pool := pool } (page s h) (page s h) <;> rfl
  · intro k hk hkfree
    obtain ⟨hold, hne⟩ := (hmark k).mp hkfree
    exact hfill.taken k (by omega) hold
  · intro k hk hkfree
    exact (hmark k).mpr ⟨hfill.kept k (by omega) hkfree, by omega⟩
  · have hframes := hfill.frames
    simp only
    omega

/-- It is mapped, when no table is missing for it. -/
theorem Filled.map (hfill : Filled s t r (j + 1) j) (hs : Rooted s r)
    (hfree : IsFree s.pool (firstFree s.pool + j)) (hneed : tablesNeeded s.mem s.pml (page s j) = 0) :
    ∃ t', mapPage t (page s j) (page s j) = some t' ∧ Filled s t' r (j + 1) (j + 1) := by
  have hroot := hfill.rooted.inv.root
  rw [hs.inv.root, ← hfill.need, ← hroot] at hneed
  obtain ⟨t', hmap, hset⟩ := mapPage_installed (page s j) hfill.rooted.inv hneed
  have hpath : ∀ i, IsFree s.pool (firstFree s.pool + i) → i ≠ j → path (page s i) ≠ path (page s j) :=
    fun i hi hne heq => hne (path_page_inj hs.inv.framed hi hfree heq)
  have hshort : ∀ q : Path, q.length ≤ 3 → follow (slot t'.mem) r q = follow (slot t.mem) r q :=
    fun q hq => hset.other q (by omega) (by rintro rfl; simp [path] at hq)
  refine ⟨t', hmap, ⟨hset.inv, hset.pool ▸ hfill.rooted.base, fun q hq => ?_⟩, hset.pool ▸ hfill.later,
    hset.pool ▸ hfill.taken, hset.pool ▸ hfill.kept, hset.pool ▸ hfill.frames, fun q hq => ?_,
    fun i hi hifree => ?_, fun i hi hifree => ?_⟩
  · exact fun hzero => hfill.rooted.zero q hq ((hshort q hq).symm.trans hzero)
  · exact (hshort q hq).trans (hfill.tables q hq)
  · rcases Nat.lt_succ_iff_lt_or_eq.mp hi with hlt | rfl
    · rw [hset.other _ le_rfl (hpath i hifree (by omega)), hfill.mapped i hlt hifree]
    · rw [hset.page, hfill.other i le_rfl hifree, page_number hs.inv.framed hifree]
  · rw [hset.other _ le_rfl (hpath i hifree (by omega)), hfill.other i (by omega) hifree]

/-- As long as no table is missing, `alloc` takes the pages in order. -/
theorem allocPages_filled (hs : Rooted s r) (hfirst : 0 < freeFrames s.pool) {m : Nat}
    (hfree : ∀ i < m, IsFree s.pool (firstFree s.pool + i))
    (hneed : ∀ i < m, tablesNeeded s.mem s.pml (page s i) = 0) :
    ∃ t, allocPages m s = some ((List.range m).map (page s), t) ∧ Filled s t r m m := by
  induction m with
  | zero => exact ⟨s, rfl, filled_zero hs hfirst⟩
  | succ m ih =>
    obtain ⟨t, hrun, hfill⟩ := ih (fun i hi => hfree i (by omega)) (fun i hi => hneed i (by omega))
    obtain ⟨t1, hpage, htaken⟩ := hfill.take hs.inv.framed (hfree m (by omega))
    obtain ⟨t', hmap, hfill'⟩ := htaken.map hs (hfree m (by omega)) (hneed m (by omega))
    rw [hmap] at hpage
    refine ⟨t', ?_, hfill'⟩
    rw [allocPages_snoc hrun hpage, List.range_succ, List.map_append, List.map_singleton]

end Pages

/-! ## The region -/

section Region

variable {s t s' : Vm} {r i m n : Nat} {frames : List Nat}

theorem page_add (s : Vm) (i : Nat) : page s 0 + PAGESIZE * i = page s i := by
  rw [page, page, PAGESIZE]
  omega

theorem page_ne_zero (hs : Rooted s r) (i : Nat) : page s i ≠ 0 := by
  have hbase := hs.base
  rw [page]
  omega

/-- All addresses of the region are mapped to themselves when its pages are. -/
theorem region_mapped_iff (hf : Framed s.pool) (mem : Memory) (pml n : Nat) :
    (∀ a, page s 0 ≤ a → a < page s 0 + PAGESIZE * n → physicalAddress mem pml a = some a) ↔
      ∀ i < n, walk mem pml (page s i) = some (page s i) := by
  have hzero := page_eq hf 0
  rw [PAGESIZE] at hzero
  constructor
  · intro h i hi
    have hadd := page_add s i
    rw [PAGESIZE] at hadd
    have hphysical := h (page s i) (by omega) (by rw [PAGESIZE]; omega)
    rw [physicalAddress, Option.map_eq_some_iff] at hphysical
    obtain ⟨w, hw, hsum⟩ := hphysical
    have heq : w = page s i := by omega
    rw [hw, heq]
  · intro h a hlow hhigh
    let i := (a - page s 0) / 4096
    have hadd := page_add s i
    rw [PAGESIZE] at hadd hhigh
    have hpage : path a = path (page s i) := by
      rw [PageRuns.path_eq_iff]
      omega
    have hsum : page s i + a % 0x1000 = a := by omega
    rw [physicalAddress, walk_eq_follow, hpage, ← walk_eq_follow, h i (by omega), Option.map_some, hsum]

theorem walk_page_iff (hf : Framed s.pool) (mem : Memory) (i : Nat) :
    walk mem (4096 * r) (page s i) = some (page s i) ↔
      follow (slot mem) r (path (page s i)) = some (frameNumber s.pool (firstFree s.pool + i)) := by
  have hpage := page_eq hf i
  rw [PAGESIZE] at hpage
  rw [walk_eq_slots, Option.map_eq_some_iff]
  constructor
  · intro h
    obtain ⟨f, hreaches, heq⟩ := h
    have hnumber : f = frameNumber s.pool (firstFree s.pool + i) := by omega
    rw [hreaches, hnumber]
  · intro h
    exact ⟨_, h, hpage.symm⟩

/-- The pages after a last one for which at most one frame is missing. -/
theorem follow_pages (hs : Rooted s r) (hfill : Filled s t r (m + 1) m)
    (hfree : ∀ i < m + 1, IsFree s.pool (firstFree s.pool + i))
    (hmaps : MapsPage t s' r (page s m) (page s m)) (hi : i < m + 1) :
    follow (slot s'.mem) r (path (page s i)) = (follow (slot s.mem) r (path (page s i))).or
      (some (frameNumber s.pool (firstFree s.pool + i))) := by
  have hf := hs.inv.framed
  rcases Nat.lt_succ_iff_lt_or_eq.mp hi with hlt | rfl
  · have hne : path (page s i) ≠ path (page s m) := fun heq =>
      absurd (path_page_inj hf (hfree i hi) (hfree m (by omega)) heq) (by omega)
    rw [hmaps.other _ hne, hfill.mapped i hlt (hfree i hi)]
  · rw [hmaps.page, hfill.other i le_rfl (hfree i hi), page_number hf (hfree i hi)]

/-- The tables are those from before, frames behind the region, and page 0 at most. -/
theorem page_not_table (hs : Rooted s r) (hfill : Filled s t r (m + 1) m)
    (hfree : ∀ i < m + 1, IsFree s.pool (firstFree s.pool + i))
    (hmaps : MapsPage t s' r (page s m) (page s m)) (hi : i < m + 1) :
    ¬ IsTable s'.mem s'.pml (page s i) := by
  intro htable
  obtain ⟨q, hq, hpath⟩ := htable
  rw [hmaps.root, follow_tables, Option.map_eq_some_iff] at hpath
  obtain ⟨f, hreaches, heq⟩ := hpath
  rw [page_eq hs.inv.framed, PAGESIZE] at heq
  obtain rfl := Nat.eq_of_mul_eq_mul_left (by decide) heq
  rcases hmaps.tables q _ hq hreaches with ⟨q', hq', hold⟩ | hzero | ⟨j, hj, hnumber⟩
  · rw [hfill.tables q' hq'] at hold
    exact hs.inv.taken q' _ hq' hold _ (hfree i hi) rfl
  · exact number_ne_zero hs.inv.framed hs.base _ hzero
  · rw [hfill.later.number] at hnumber
    have hij := Nat.add_left_cancel hnumber
    exact hfill.taken j (by omega) hj

/-- So the region is usable exactly when nothing else was mapped in its place. -/
theorem usableRegion_iff (hs : Rooted s r) (hfill : Filled s t r (m + 1) m)
    (hfree : ∀ i < m + 1, IsFree s.pool (firstFree s.pool + i))
    (hmaps : MapsPage t s' r (page s m) (page s m)) :
    UsableRegion s' ((List.range (m + 1)).map (page s)) (page s 0) (m + 1) ↔
      ∀ i < m + 1, walk s.mem s.pml (page s i) = none ∨ walk s.mem s.pml (page s i) = some (page s i) := by
  have hf := hs.inv.framed
  have hwalk : ∀ i < m + 1, walk s'.mem s'.pml (page s i) = some (page s i) ↔
      walk s.mem s.pml (page s i) = none ∨ walk s.mem s.pml (page s i) = some (page s i) := by
    intro i hi
    rw [hmaps.root, hs.inv.root, walk_page_iff hf, walk_page_iff hf, walk_eq_slots,
      Option.map_eq_none_iff, follow_pages hs hfill hfree hmaps hi]
    cases follow (slot s.mem) r (path (page s i)) <;> simp
  constructor
  · intro h i hi
    exact (hwalk i hi).mp ((region_mapped_iff hf _ _ _).mp h.mapped i hi)
  · intro h
    refine ⟨fun i hi => ?_, fun i hi => ?_, ?_⟩
    · rw [page_add]
      exact List.mem_map_of_mem (List.mem_range.mpr hi)
    · rw [page_add]
      exact page_not_table hs hfill hfree hmaps hi
    · rw [region_mapped_iff hf]
      exact fun i hi => (hwalk i hi).mpr (h i hi)

end Region

/-! ## The states that let `alloc` return a region -/

section States

variable {s s' : Vm} {r m n : Nat} {frames : List Nat}

/-- An empty pool: the call returns 0, if it returns. -/
theorem allocPages_empty (hempty : freeFrames s.pool = 0)
    (h : allocPages (n + 1) s = some (frames, s')) : frames.headD 0 = 0 ∧ s.pool.pages ≤ 100 := by
  obtain ⟨frame, s1, rest, hpage, _, rfl⟩ := allocPages_succ_inv h
  obtain ⟨pool, ha, _⟩ := allocPage_inv hpage
  obtain ⟨hzero, _, hpages⟩ := pmmAllocate_empty hempty ha
  exact ⟨hzero, hpages⟩

theorem allocPages_covered (n : Nat) (h : s.pool.pages ≤ 100) :
    ∃ frames s', allocPages n s = some (frames, s') := by
  induction n generalizing s with
  | zero => exact ⟨[], s, rfl⟩
  | succ n ih =>
    obtain ⟨frame, pool, ha⟩ := pmmAllocate_isSome h
    have hpool : pool.pages ≤ 100 := (pmmAllocate_later ha).pages ▸ h
    obtain ⟨s1, hmap⟩ := mapPage_covered (s := { s with pool := pool }) frame frame hpool
    obtain ⟨frames, s', hrest⟩ := ih (s := s1) ((mapPage_onward hmap).later.pages ▸ hpool)
    have hpage : allocPage s = some (frame, s1) := by
      simp only [allocPage, ha, Option.bind_eq_bind, Option.bind_some, hmap]
    exact ⟨frame :: frames, s', by rw [allocPages_succ hpage, hrest, Option.map_some]⟩

/-- The region starts at the first free page. -/
theorem allocPages_head (hs : Rooted s r) (hfirst : 0 < freeFrames s.pool)
    (h : allocPages (n + 1) s = some (frames, s')) : frames.headD 0 = page s 0 := by
  obtain ⟨t, hpage, _⟩ :=
    (filled_zero hs hfirst).take hs.inv.framed (firstFree_spec hfirst).1
  obtain ⟨frame, s1, rest, hround, _, rfl⟩ := allocPages_succ_inv h
  rw [hpage] at hround
  obtain ⟨_, _, heq⟩ := Option.map_eq_some_iff.mp hround
  exact (Prod.mk.inj heq).1.symm

theorem free_of_handed {i : Nat} (hs : Rooted s r) (h : allocPages n s = some (frames, s'))
    (hmem : page s i ∈ frames) : IsFree s.pool (firstFree s.pool + i) := by
  rcases allocPages_free hs.inv.framed h _ hmem with hzero | ⟨j, hj, heq⟩
  · exact absurd hzero (page_ne_zero hs i)
  · rw [page_eq hs.inv.framed, PAGESIZE] at heq
    have hnumber := Nat.eq_of_mul_eq_mul_left (by decide) heq
    rwa [Nat.add_left_cancel hnumber]

/-- A table that is missing before the last page takes the frame behind that page. -/
theorem tables_of_handed (hs : Rooted s r) (hfirst : 0 < freeFrames s.pool)
    (h : allocPages n s = some (frames, s')) (hmem : ∀ i < n, page s i ∈ frames) (i : Nat)
    (hi : i + 1 < n) : tablesNeeded s.mem s.pml (page s i) = 0 := by
  have hfree : ∀ i < n, IsFree s.pool (firstFree s.pool + i) :=
    fun i hi => free_of_handed hs h (hmem i hi)
  induction i using Nat.strong_induction_on with
  | _ i ih =>
    by_contra hneed
    obtain ⟨t, hrun, hfill⟩ := allocPages_filled hs hfirst (m := i)
      (fun k hk => hfree k (by omega)) (fun k hk => ih k hk (by omega))
    obtain ⟨t1, hpage, htaken⟩ := hfill.take hs.inv.framed (hfree i (by omega))
    obtain ⟨k, rfl⟩ : ∃ k, n = i + (k + 1) := ⟨n - i - 1, by omega⟩
    obtain ⟨frame, t2, rest, hround, hrest, hall⟩ := allocPages_split hrun h
    rw [hround] at hpage
    obtain ⟨t3, hmap, heq⟩ := Option.map_eq_some_iff.mp hpage.symm
    obtain ⟨rfl, rfl⟩ := Prod.mk.inj heq
    have hnext : IsFree t1.pool (firstFree s.pool + (i + 1)) := htaken.kept _ le_rfl (hfree (i + 1) hi)
    have hleft : 0 < freeFrames t1.pool :=
      Nat.pos_of_ne_zero fun hzero => freeFrames_eq_zero.mp hzero _ hnext
    rw [hs.inv.root, ← htaken.need, ← htaken.rooted.inv.root] at hneed
    have hbehind := mapPage_takes htaken.rooted.inv hleft htaken.taken hneed hmap
    have hlater := htaken.later.trans (mapPage_onward hmap).later
    have hlast := hmem (i + 1) hi
    rw [hall, List.mem_append, List.mem_map, List.mem_cons] at hlast
    rcases hlast with ⟨l, hl, heq⟩ | heq | hrestmem
    · rw [List.mem_range] at hl
      simp only [page, PAGESIZE] at heq
      omega
    · simp only [page, PAGESIZE] at heq
      omega
    · rcases allocPages_free (hlater.framed hs.inv.framed) hrest _ hrestmem with hzero | ⟨j, hj, heq⟩
      · exact page_ne_zero hs (i + 1) hzero
      · rw [hlater.number, page_eq hs.inv.framed, PAGESIZE] at heq
        have hnumber := Nat.add_left_cancel (Nat.eq_of_mul_eq_mul_left (by decide) heq)
        exact hbehind j (by omega) hj

/-- Up to the last `map_page` the call takes the pages in order. -/
theorem allocPages_last (hs : Rooted s r) (hfirst : 0 < freeFrames s.pool)
    (hfree : ∀ i < m + 1, IsFree s.pool (firstFree s.pool + i))
    (hneed : ∀ i < m, tablesNeeded s.mem s.pml (page s i) = 0) :
    ∃ t, Filled s t r (m + 1) m ∧ allocPages (m + 1) s =
      (mapPage t (page s m) (page s m)).map (fun s' => ((List.range (m + 1)).map (page s), s')) := by
  obtain ⟨t, hrun, hfill⟩ := allocPages_filled hs hfirst (fun i hi => hfree i (by omega)) hneed
  obtain ⟨t', hpage, htaken⟩ := hfill.take hs.inv.framed (hfree m (by omega))
  refine ⟨t', htaken, ?_⟩
  cases hmap : mapPage t' (page s m) (page s m) with
  | none =>
    rw [hmap, Option.map_none] at hpage
    rw [allocPages_add hrun 1, allocPages, hpage]
    rfl
  | some s' =>
    rw [hmap, Option.map_some] at hpage
    rw [allocPages_snoc hrun hpage, List.range_succ, List.map_append, List.map_singleton]
    rfl

/-- With more frames missing on the last page, that page is no region of its own. -/
theorem frames_of_region {t : Vm} (hs : Rooted s r) (hfill : Filled s t r (m + 1) m)
    (hfree : IsFree s.pool (firstFree s.pool + m))
    (hmap : mapPage t (page s m) (page s m) = some s')
    (hregion : UsableRegion s' frames (page s 0) (m + 1)) :
    tablesNeeded t.mem t.pml (page s m) ≤
      freeFrames t.pool + (if s.pool.pages ≤ 100 then 1 else 0) := by
  have hf := hs.inv.framed
  by_contra hmore
  obtain ⟨_, hpages⟩ := mapPage_empties hfill.rooted (by omega) hmap
  rw [hfill.later.pages] at hpages
  rw [if_pos hpages] at hmore
  have hnumber := page_number hf hfree
  have hroot : s'.pml = 4096 * r := (mapPage_onward hmap).pml.trans hfill.rooted.inv.root
  have hwalk := (region_mapped_iff hf _ _ _).mp hregion.mapped m (Nat.lt_succ_self m)
  rw [hroot, walk_page_iff hf, ← hnumber] at hwalk
  obtain ⟨q, hq, htable⟩ := mapPage_zero_table hfill.rooted (by omega) hmap
    (hnumber ▸ number_ne_zero hf hs.base _) hwalk
  refine hregion.noTable m (Nat.lt_succ_self m) ⟨q, hq, ?_⟩
  rw [hroot, follow_tables, htable, Option.map_some, page_add, hnumber, page_eq hf, PAGESIZE]

/-- A run whose region is usable started in a state that suits it. -/
theorem suits_of_region (hs : Rooted s r) (hfirst : 0 < freeFrames s.pool)
    (h : allocPages (m + 1) s = some (frames, s'))
    (hregion : UsableRegion s' frames (page s 0) (m + 1)) : Suits s (m + 1) := by
  have hmem : ∀ i < m + 1, page s i ∈ frames := fun i hi => page_add s i ▸ hregion.handed i hi
  have hfree : ∀ i < m + 1, IsFree s.pool (firstFree s.pool + i) :=
    fun i hi => free_of_handed hs h (hmem i hi)
  have htables := tables_of_handed hs hfirst h hmem
  obtain ⟨t, hfill, hlast⟩ :=
    allocPages_last hs hfirst hfree (fun i hi => htables i (Nat.succ_lt_succ hi))
  rw [hlast] at h
  obtain ⟨_, hmap, heq⟩ := Option.map_eq_some_iff.mp h
  obtain ⟨rfl, rfl⟩ := Prod.mk.inj heq
  have hneed := frames_of_region hs hfill (hfree m (Nat.lt_succ_self m)) hmap hregion
  have hframes := hfill.frames
  have hone : (if s.pool.pages ≤ 100 then 1 else 0) ≤ 1 := by split <;> omega
  have hmaps := mapPage_mapsPage hfill.rooted (by omega) hmap
  rw [hfill.rooted.inv.root, hfill.need, ← hs.inv.root] at hneed
  refine ⟨hfree, htables, ?_, (usableRegion_iff hs hfill hfree hmaps).mp hregion⟩
  rw [Nat.add_sub_cancel]
  omega

/-- From such a state the run ends, with a usable region. -/
theorem region_of_suits (hs : Rooted s r) (hfirst : 0 < freeFrames s.pool) (h : Suits s (m + 1)) :
    ∃ frames s', allocPages (m + 1) s = some (frames, s') ∧
      UsableRegion s' frames (page s 0) (m + 1) := by
  obtain ⟨t, hfill, hlast⟩ :=
    allocPages_last hs hfirst h.free (fun i hi => h.tables i (Nat.succ_lt_succ hi))
  have hneed := h.frames
  have hframes := hfill.frames
  rw [Nat.add_sub_cancel, hs.inv.root, ← hfill.need, ← hfill.rooted.inv.root] at hneed
  have hone : (if s.pool.pages ≤ 100 then 1 else 0) ≤ 1 := by split <;> omega
  have hmap : ∃ s', mapPage t (page s m) (page s m) = some s' := by
    by_cases hpages : s.pool.pages ≤ 100
    · exact mapPage_covered _ _ (hfill.later.pages ▸ hpages)
    · rw [if_neg hpages] at hneed
      obtain ⟨s', hmap, _⟩ := mapPage_spec (page s m) hfill.rooted.inv (v := page s m) (by omega)
      exact ⟨s', hmap⟩
  obtain ⟨s', hmap⟩ := hmap
  have hmaps := mapPage_mapsPage hfill.rooted (by omega) hmap
  rw [hmap, Option.map_some] at hlast
  exact ⟨_, s', hlast, (usableRegion_iff hs hfill h.free hmaps).mpr h.unmapped⟩

end States

/-- From a state with a frame left. -/
theorem usable_iff_suits {s : Vm} {r : Nat} {n : UInt32} (hs : Rooted s r)
    (hfirst : 0 < freeFrames s.pool) (hn : 1 ≤ n.toNat) : Usable s n ↔ Suits s n.toNat := by
  rw [usable_iff_rounds hn]
  obtain ⟨m, hm⟩ := Nat.exists_eq_add_one.mpr hn
  rw [hm]
  constructor
  · intro h
    obtain ⟨frames, s', hrun, hregion⟩ := h
    rw [allocPages_head hs hfirst hrun] at hregion
    exact suits_of_region hs hfirst hrun (hregion (page_ne_zero hs 0))
  · intro h
    obtain ⟨frames, s', hrun, hregion⟩ := region_of_suits hs hfirst h
    refine ⟨frames, s', hrun, fun _ => ?_⟩
    rwa [allocPages_head hs hfirst hrun]

/-- `alloc` returns a usable region exactly from the states that suit it, or nothing from an
empty pool. -/
theorem alloc_usable_iff {s : Vm} {n : UInt32} (hs : Booted s) (hn : 1 ≤ n.toNat) :
    Usable s n ↔ NoFrames s ∨ Suits s n.toNat := by
  by_cases hempty : freeFrames s.pool = 0
  · have hnot : ¬ Suits s n.toNat := fun h => freeFrames_eq_zero.mp hempty _ (h.free 0 hn)
    rw [usable_iff_rounds hn, NoFrames, or_iff_left hnot, and_iff_right hempty]
    obtain ⟨m, hm⟩ := Nat.exists_eq_add_one.mpr hn
    rw [hm]
    constructor
    · intro h
      obtain ⟨frames, s', hrun, _⟩ := h
      exact (allocPages_empty hempty hrun).2
    · intro hpages
      obtain ⟨frames, s', hrun⟩ := allocPages_covered (m + 1) hpages
      exact ⟨frames, s', hrun, fun hne => absurd (allocPages_empty hempty hrun).1 hne⟩
  · obtain ⟨r, hr⟩ := hs.rooted.resolve_left hempty
    have hnot : ¬ NoFrames s := fun h => hempty h.1
    rw [or_iff_right hnot]
    exact usable_iff_suits hr (Nat.pos_of_ne_zero hempty) hn

theorem sampleVm_booted : Booted sampleVm :=
  .zeroed samplePool_framed (by decide) (by decide +kernel)

theorem page_sampleVm : page sampleVm 0 = 0x201000 := by decide +kernel

/-- The frames of a pool are taken in their order, by `map_page` as well. -/
theorem nextTable_marked {s s' : Vm} {table i t k : Nat} (hk : Marked s.pool k)
    (h : nextTable s table i = some (t, s')) : ∃ k', Marked s'.pool k' := by
  rcases nextTable_inv h with ⟨_, pool, ha, rfl⟩ | ⟨_, _, rfl⟩
  · exact hk.taken ha
  · exact ⟨k, hk⟩

theorem descend_marked {s s' : Vm} {table t k : Nat} {indices : List Nat} (hk : Marked s.pool k)
    (h : descend s table indices = some (t, s')) : ∃ k', Marked s'.pool k' := by
  induction indices generalizing s table k with
  | nil =>
    obtain ⟨_, rfl⟩ := Prod.mk.inj (Option.some.inj h)
    exact ⟨k, hk⟩
  | cons i indices ih =>
    obtain ⟨table', s1, hnext, hrest⟩ := descend_cons_inv h
    obtain ⟨k1, hk1⟩ := nextTable_marked hk hnext
    exact ih hk1 hrest

theorem mapPage_marked {s s' : Vm} {v p k : Nat} (hk : Marked s.pool k)
    (h : mapPage s v p = some s') : ∃ k', Marked s'.pool k' := by
  obtain ⟨pt, t, hlast, rfl⟩ := mapPage_inv h
  obtain ⟨k', hk'⟩ := descend_marked hk hlast
  refine ⟨k', ?_⟩
  rw [setLeaf]
  split <;> exact hk'

theorem tablesNeeded_of_walk {m : Memory} {pml v f : Nat} (h : walk m pml v = some f) :
    tablesNeeded m pml v = 0 := by
  unfold walk at h
  obtain ⟨pud, hpud, h⟩ := Option.bind_eq_some_iff.mp h
  obtain ⟨pmd, hpmd, h⟩ := Option.bind_eq_some_iff.mp h
  obtain ⟨pt, hpt, _⟩ := Option.bind_eq_some_iff.mp h
  simp only [tablesNeeded, hpud, hpmd, hpt]
  exact if_neg (Option.some_ne_none pt)

/-- With the page of the `pml` mapped, the tables for the pages behind it are there. -/
theorem sampleVm_mapped : ∃ s, mapPage sampleVm 0x200000 0x200000 = some s ∧ Booted s ∧ Suits s 3 := by
  have hneed := tablesNeeded_le_three sampleVm.mem sampleVm.pml 0x200000
  have hcount : freeFrames sampleVm.pool = 99 := by decide +kernel
  obtain ⟨r, hinv⟩ := sampleVm_reachable.treeInv
  obtain ⟨s, hs, hmapped⟩ := mapPage_spec (v := 0x200000) 0x200000 hinv (by omega)
  have hpages : s.pool.pages = 256 := (mapPage_onward hs).later.pages
  have hbase : s.pool.base = 0x200000 := (mapPage_onward hs).later.base
  have hframes := hmapped.frames
  obtain ⟨k, hk⟩ := mapPage_marked (k := 1) ⟨by decide, by decide +kernel⟩ hs
  have hleft := hk.freeFrames_eq
  have hfirst := hk.firstFree_eq (by omega)
  have hpage (i : Nat) : page s i = 0x200000 + 4096 * (k + i) := by
    rw [page, hbase, hfirst, PAGESIZE]
  have hlevel : ∀ j < 7, level3 (0x200000 + 4096 * j) = level3 0x200000 := by decide
  have hpath : ∀ j < 7, j ≠ 0 → path (0x200000 + 4096 * j) ≠ path 0x200000 := by decide
  have hroot : sampleVm.pml = s.pml := hinv.root.trans hmapped.inv.root.symm
  have htables : ∀ i < 3, tablesNeeded s.mem s.pml (page s i) = 0 := by
    intro i hi
    have hwalk : walk s.mem s.pml 0x200000 = some (4096 * ((follow (slot sampleVm.mem) r
        (path 0x200000)).getD 0x200)) := by
      rw [hmapped.inv.root, walk_eq_slots, hmapped.page]
      cases follow (slot sampleVm.mem) r (path 0x200000) <;> rfl
    rw [← tablesNeeded_of_walk hwalk, hmapped.inv.root, tablesNeeded_eq_needs, tablesNeeded_eq_needs,
      hpage, hlevel (k + i) (by omega)]
  refine ⟨s, hs, .mapped sampleVm_booted hs, ⟨fun i hi => ?_, fun i hi => htables i (by omega), ?_,
    fun i hi => Or.inl ?_⟩⟩
  · rw [hfirst, hk.isFree_iff]
    omega
  · rw [htables 2 (by decide)]
    omega
  · rw [hpage, hmapped.inv.root, walk_eq_slots, hmapped.other _ (hpath (k + i) (by omega) (by omega)),
      ← walk_eq_slots, ← hmapped.inv.root, ← hroot, sampleVm_unmapped]

theorem alloc_usable_three : ∃ s, mapPage sampleVm 0x200000 0x200000 = some s ∧ Usable s 3 := by
  obtain ⟨s, hs, hbooted, hsuits⟩ := sampleVm_mapped
  exact ⟨s, hs, (alloc_usable_iff hbooted (by decide)).mpr (Or.inr hsuits)⟩

theorem sampleVm_needs : tablesNeeded sampleVm.mem sampleVm.pml (page sampleVm 0) = 3 := by
  rw [page_sampleVm, sampleVm_mem]
  decide +kernel

/-- Two pages from the sample state: three tables are missing for `0x201000`, so they lie
between it and the second frame `0x205000`, and `0x202000` is one of them. -/
theorem alloc_two_not_usable : Booted sampleVm ∧ ¬ Usable sampleVm 2 := by
  refine ⟨sampleVm_booted, fun h => ?_⟩
  have hleft : freeFrames sampleVm.pool ≠ 0 := by decide +kernel
  obtain ⟨r, hr⟩ := sampleVm_booted.rooted.resolve_left hleft
  have hsuits := (usable_iff_suits hr (Nat.pos_of_ne_zero hleft) (by decide)).mp h
  have hnone := hsuits.tables 0 (by decide)
  rw [sampleVm_needs] at hnone
  cases hnone

end PaskakasaOS.Kernel.Memory.AllocRegion
