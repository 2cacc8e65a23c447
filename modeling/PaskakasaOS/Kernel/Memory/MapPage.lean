import PaskakasaOS.Kernel.Memory.VmmTree

/-!
# What one `map_page` call does to the address space

`TreeInv` is the invariant of the tables over the whole physical memory: they
form a tree, and every table is a frame the pool will not hand out again. Each
of the three descents of `map_page` keeps it and adds at most one path; the last
write maps at most one page.
-/
namespace PaskakasaOS.Kernel.Memory.MapPage

open Lib.ByteMemory Lib.TableTree
open Utils.Mem (memset memset_eq_fill)
open Pmm Vmm VmmTree

/-- The tables below frame `r` form a tree of frames taken from the pool. -/
structure TreeInv (s : Vm) (r : Nat) : Prop where
  root : s.pml = 4096 * r
  framed : Framed s.pool
  tree : Tree (slot s.mem) r 3
  taken : ∀ q f, q.length ≤ 3 → follow (slot s.mem) r q = some f →
    ∀ j, IsFree s.pool j → f ≠ frameNumber s.pool j

/-- The step from `s` to `s'` made sure that path `q` reaches the table `c`. -/
structure Descends (s s' : Vm) (r : Nat) (q : Path) (c : Nat) : Prop where
  inv : TreeInv s' r
  reaches : follow (slot s'.mem) r q = some c
  other : ∀ q', q'.length ≤ 4 → q' ≠ q → follow (slot s'.mem) r q' = follow (slot s.mem) r q'
  kept : follow (slot s.mem) r q ≠ none → s' = s
  frames : freeFrames s'.pool + (if follow (slot s.mem) r q = none then 1 else 0) =
    freeFrames s.pool

/-- A descent maps no page. -/
theorem Descends.path {s s' : Vm} {r c : Nat} {q : Path} (h : Descends s s' r q c)
    (hq : q.length ≤ 3) (v : Nat) :
    follow (slot s'.mem) r (VmmTree.path v) = follow (slot s.mem) r (VmmTree.path v) := by
  apply h.other (VmmTree.path v) le_rfl
  intro heq
  rw [← heq] at hq
  simp [VmmTree.path] at hq

theorem table_entry (c : Nat) (hc : c < 2 ^ 40) :
    decode ((4096 * c &&& ADDRESS_MASK) ||| PRESENT ||| WRITABLE) = some c := by
  rw [Nat.or_assoc, decode_flags _ _ (by decide) (by decide), and_address_mask]
  congr 1
  omega

/-- The stores that clear the frame `c` and link it. -/
theorem slot_linked (m : Memory) (f : Nat) (i : Fin 512) {c : Nat} (hc : c < 2 ^ 40) :
    slot (setEntry (memset m (4096 * c) 0 0x1000) (4096 * f) i
      ((4096 * c &&& ADDRESS_MASK) ||| PRESENT ||| WRITABLE)) = link (slot m) f i c := by
  rw [slot_setEntry, memset_eq_fill, slot_fill, table_entry c hc]
  rfl

section NextTable

variable {s : Vm} {r f : Nat} {p : Path} {i : Fin 512}

/-- A present entry leads to its table. -/
theorem nextTable_present (hs : TreeInv s r) (hp : follow (slot s.mem) r p = some f)
    (he : entry s.mem (4096 * f) i % 2 ≠ 0) :
    ∃ c s', nextTable s (4096 * f) i = some (4096 * c, s') ∧ Descends s s' r (p ++ [i]) c := by
  have hstep : follow (slot s.mem) r (p ++ [i]) = slot s.mem f i := follow_step hp
  let c := entry s.mem (4096 * f) i / 4096 % 2 ^ 40
  have hsome : slot s.mem f i = some c := by rw [slot, decode, if_neg he]
  refine ⟨c, s, ?_, hs, hstep.trans hsome, fun _ _ _ => rfl, fun _ => rfl, ?_⟩
  · rw [nextTable, and_present, if_neg he, and_address_mask]
  · rw [hstep, hsome]
    rfl

/-- An absent one gets the frame that `pmm_allocate` answers, cleared and linked, if that
frame is no table yet. -/
theorem nextTable_link {c : Nat} {pool' : Pool} (hs : TreeInv s r)
    (hp : follow (slot s.mem) r p = some f) (hlen : p.length < 3)
    (he : entry s.mem (4096 * f) i % 2 = 0) (ha : pmmAllocate s.pool = some (4096 * c, pool'))
    (hc : c < 2 ^ 40) (hfresh : Fresh (slot s.mem) r 3 c)
    (hleft : ∀ j, IsFree pool' j → c ≠ frameNumber s.pool j) :
    ∃ mem', nextTable s (4096 * f) i = some (4096 * c, { s with mem := mem', pool := pool' }) ∧
      slot mem' = link (slot s.mem) f i c ∧ TreeInv { s with mem := mem', pool := pool' } r ∧
      ∀ q : Path, q.length ≤ 4 → follow (slot mem') r q =
        if q = p ++ [i] then some c else follow (slot s.mem) r q := by
  have hnone : slot s.mem f i = none := by rw [slot, decode, if_pos he]
  have hlater : Later s.pool pool' := pmmAllocate_later ha
  let mem' := setEntry (memset s.mem (4096 * c) 0 0x1000) (4096 * f) i
    ((4096 * c &&& ADDRESS_MASK) ||| PRESENT ||| WRITABLE)
  have hslots : slot mem' = link (slot s.mem) f i c := slot_linked s.mem f i hc
  have hfollow : ∀ q : Path, q.length ≤ 4 → follow (slot mem') r q =
      if q = p ++ [i] then some c else follow (slot s.mem) r q := by
    intro q hq
    rw [hslots, follow_link hs.tree hp hlen hnone hfresh hq]
  refine ⟨mem', ?_, hslots, ⟨hs.root, hlater.framed hs.framed, ?_, ?_⟩, hfollow⟩
  · rw [nextTable, and_present, if_pos he, ha]
    rfl
  · exact hslots ▸ tree_link hs.tree hp hlen hnone hfresh
  · intro q g hq hg k hk
    rw [hfollow q (by omega)] at hg
    rw [hlater.number]
    split at hg
    · obtain rfl := Option.some.inj hg
      exact hleft k hk
    · exact hs.taken q g hq hg k (hlater.free k hk)

/-- That is the first free frame as long as there is one. -/
theorem nextTable_absent (hs : TreeInv s r) (hp : follow (slot s.mem) r p = some f)
    (hlen : p.length < 3) (he : entry s.mem (4096 * f) i % 2 = 0) (hfree : 0 < freeFrames s.pool) :
    ∃ c s', nextTable s (4096 * f) i = some (4096 * c, s') ∧ Descends s s' r (p ++ [i]) c := by
  have hstep : follow (slot s.mem) r (p ++ [i]) = slot s.mem f i := follow_step hp
  have hnone : slot s.mem f i = none := by rw [slot, decode, if_pos he]
  obtain ⟨j, pool', halloc, hj, hfree', hcount, _⟩ := pmmAllocate_of_free hfree
  obtain ⟨haddr, hc⟩ := hs.framed.address hj
  have hfresh : Fresh (slot s.mem) r 3 (frameNumber s.pool j) :=
    fun q hq hqc => hs.taken q _ hq hqc j hj rfl
  have hleft : ∀ k, IsFree pool' k → frameNumber s.pool j ≠ frameNumber s.pool k := by
    intro k hk heq
    exact ((hfree' k).mp hk).2 (Nat.add_left_cancel heq).symm
  obtain ⟨mem', hnext, _, hinv, hfollow⟩ :=
    nextTable_link hs hp hlen he (haddr ▸ halloc) hc hfresh hleft
  refine ⟨frameNumber s.pool j, { s with mem := mem', pool := pool' }, hnext, hinv, ?_, ?_, ?_, ?_⟩
  · rw [hfollow _ (by simp; omega), if_pos rfl]
  · intro q hq hne
    rw [hfollow q hq, if_neg hne]
  · intro hsome
    exact absurd (hstep.trans hnone) hsome
  · rw [hstep, if_pos hnone]
    exact hcount

/-- One descent: the table below slot `i` is reused, or a fresh frame is linked there. -/
theorem nextTable_spec (hs : TreeInv s r) (hp : follow (slot s.mem) r p = some f)
    (hlen : p.length < 3) (hfree : slot s.mem f i = none → 0 < freeFrames s.pool) :
    ∃ c s', nextTable s (4096 * f) i = some (4096 * c, s') ∧ Descends s s' r (p ++ [i]) c := by
  by_cases he : entry s.mem (4096 * f) i % 2 = 0
  · exact nextTable_absent hs hp hlen he (hfree (by rw [slot, decode, if_pos he]))
  · exact nextTable_present hs hp he

end NextTable

/-! ## The three descents and the leaf -/

/-- 1 when path `q` reaches no table yet. -/
def missing (s : Vm) (r : Nat) (q : Path) : Nat := if follow (slot s.mem) r q = none then 1 else 0

def level1 (v : Nat) : Path := [⟨pml4Index v, pml4Index_lt v⟩]
def level2 (v : Nat) : Path := level1 v ++ [⟨pudIndex v, pudIndex_lt v⟩]
def level3 (v : Nat) : Path := level2 v ++ [⟨pmdIndex v, pmdIndex_lt v⟩]

@[simp] theorem level1_length (v : Nat) : (level1 v).length = 1 := rfl
@[simp] theorem level2_length (v : Nat) : (level2 v).length = 2 := rfl
@[simp] theorem level3_length (v : Nat) : (level3 v).length = 3 := rfl

theorem path_eq (v : Nat) : path v = level3 v ++ [⟨ptIndex v, ptIndex_lt v⟩] := rfl

theorem tablesNeeded_eq (s : Vm) (r v : Nat) :
    tablesNeeded s.mem (4096 * r) v =
      missing s r (level1 v) + missing s r (level2 v) + missing s r (level3 v) := by
  have h1 := target_eq s.mem r ⟨pml4Index v, pml4Index_lt v⟩
  have e1 : follow (slot s.mem) r (level1 v) = slot s.mem r ⟨pml4Index v, pml4Index_lt v⟩ :=
    follow_step (p := []) rfl
  have e2 : follow (slot s.mem) r (level2 v) = _ := follow_snoc (level1 v) _
  have e3 : follow (slot s.mem) r (level3 v) = _ := follow_snoc (level2 v) _
  rw [tablesNeeded, missing, missing, missing, e3, e2, e1, h1]
  rcases Option.eq_none_or_eq_some (slot s.mem r ⟨pml4Index v, pml4Index_lt v⟩) with hr | ⟨pud, hr⟩
  · simp [hr]
  have h2 := target_eq s.mem pud ⟨pudIndex v, pudIndex_lt v⟩
  simp only [hr, Option.map_some, Option.bind_some, h2]
  rcases Option.eq_none_or_eq_some (slot s.mem pud ⟨pudIndex v, pudIndex_lt v⟩) with hd | ⟨pmd, hd⟩
  · simp [hd]
  have h3 := target_eq s.mem pmd ⟨pmdIndex v, pmdIndex_lt v⟩
  simp [hd, h3]

/-- The last step from `s` to `s'` mapped the page of `v` unless it was mapped. -/
structure Installed (s s' : Vm) (r v p : Nat) : Prop where
  inv : TreeInv s' r
  page : follow (slot s'.mem) r (path v) =
    (follow (slot s.mem) r (path v)).or (some (p / 4096 % 2 ^ 40))
  other : ∀ q, q.length ≤ 4 → q ≠ path v → follow (slot s'.mem) r q = follow (slot s.mem) r q
  pool : s'.pool = s.pool

theorem setLeaf_spec {s : Vm} {r t v : Nat} (p : Nat) (hs : TreeInv s r)
    (ht : follow (slot s.mem) r (level3 v) = some t) :
    Installed s (setLeaf s (4096 * t) v p) r v p := by
  let i : Fin 512 := ⟨ptIndex v, ptIndex_lt v⟩
  have hstep : follow (slot s.mem) r (path v) = slot s.mem t i := by rw [path_eq, follow_step ht]
  rw [setLeaf, and_present]
  by_cases he : entry s.mem (4096 * t) i % 2 = 0
  · have hnone : slot s.mem t i = none := by rw [slot, decode, if_pos he]
    have hleaf : decode (p ||| PAT ||| PRESENT ||| WRITABLE) = some (p / 4096 % 2 ^ 40) := by
      rw [Nat.or_assoc, Nat.or_assoc, decode_flags _ _ (by decide) (by decide)]
    let mem' := setEntry s.mem (4096 * t) i (p ||| PAT ||| PRESENT ||| WRITABLE)
    have hslots : slot mem' = setSlot (slot s.mem) t i (some (p / 4096 % 2 ^ 40)) := by
      rw [slot_setEntry, hleaf]
    have hfollow : ∀ q : Path, q.length ≤ 4 → follow (slot mem') r q =
        if q = path v then some (p / 4096 % 2 ^ 40) else follow (slot s.mem) r q := by
      intro q hq
      rw [hslots, follow_install hs.tree ht rfl hq, path_eq]
    rw [if_pos he]
    refine ⟨⟨hs.root, hs.framed, ?_, ?_⟩, ?_, ?_, rfl⟩
    · exact hslots ▸ tree_install hs.tree ht rfl
    · intro q g hq hg
      rw [hfollow q (by omega), if_neg (by rintro rfl; simp [path] at hq)] at hg
      exact hs.taken q g hq hg
    · show follow (slot mem') r (path v) = _
      rw [hfollow _ (by simp [path]), if_pos rfl, hstep, hnone]
      rfl
    · intro q hq hne
      show follow (slot mem') r q = _
      rw [hfollow q hq, if_neg hne]
  · have hsome : slot s.mem t i = some (entry s.mem (4096 * t) i / 4096 % 2 ^ 40) := by
      rw [slot, decode, if_neg he]
    rw [if_neg he]
    refine ⟨hs, ?_, fun _ _ _ => rfl, rfl⟩
    rw [hstep, hsome]
    rfl

/-- With a frame for every missing table, the three descents lead to the table of the leaf. -/
theorem lastTable_spec {s : Vm} {r v : Nat} (hs : TreeInv s r)
    (hfree : tablesNeeded s.mem s.pml v ≤ freeFrames s.pool) :
    ∃ s1 s2 s3 c1 c2 c3, lastTable s v = some (4096 * c3, s3) ∧
      Descends s s1 r (level1 v) c1 ∧ Descends s1 s2 r (level2 v) c2 ∧
      Descends s2 s3 r (level3 v) c3 := by
  rw [hs.root, tablesNeeded_eq] at hfree
  unfold missing at hfree
  obtain ⟨c1, s1, e1, d1⟩ := nextTable_spec (p := []) (i := ⟨pml4Index v, pml4Index_lt v⟩)
    hs rfl (by decide) (by
      intro h
      have hnone : follow (slot s.mem) r (level1 v) = none := (follow_step (p := []) rfl).trans h
      rw [if_pos hnone] at hfree
      omega)
  change Descends s s1 r (level1 v) c1 at d1
  have f1 := d1.frames
  have m2 := d1.other (level2 v) (by simp) (by simp [level2, level1])
  have m3 := d1.other (level3 v) (by simp) (by simp [level3, level2, level1])
  rw [← m2, ← m3] at hfree
  obtain ⟨c2, s2, e2, d2⟩ := nextTable_spec (i := ⟨pudIndex v, pudIndex_lt v⟩)
    d1.inv d1.reaches (by simp) (by
      intro h
      have hnone : follow (slot s1.mem) r (level2 v) = none := (follow_step d1.reaches).trans h
      rw [if_pos hnone] at hfree
      omega)
  change Descends s1 s2 r (level2 v) c2 at d2
  have f2 := d2.frames
  rw [← d2.other (level3 v) (by simp) (by simp [level3, level2, level1])] at hfree
  obtain ⟨c3, s3, e3, d3⟩ := nextTable_spec (i := ⟨pmdIndex v, pmdIndex_lt v⟩)
    d2.inv d2.reaches (by simp) (by
      intro h
      have hnone : follow (slot s2.mem) r (level3 v) = none := (follow_step d2.reaches).trans h
      rw [if_pos hnone] at hfree
      omega)
  change Descends s2 s3 r (level3 v) c3 at d3
  have e1' : nextTable s s.pml (pml4Index v) = some (4096 * c1, s1) := by rw [hs.root]; exact e1
  refine ⟨s1, s2, s3, c1, c2, c3, ?_, d1, d2, d3⟩
  simp only [lastTable, tableIndices, descend, e1', e2, e3, Option.bind_eq_bind, Option.bind_some]

/-- Then `map_page` runs its four steps. -/
theorem mapPage_steps {s : Vm} {r v : Nat} (p : Nat) (hs : TreeInv s r)
    (hfree : tablesNeeded s.mem s.pml v ≤ freeFrames s.pool) :
    ∃ s1 s2 s3 s' c1 c2 c3, mapPage s v p = some s' ∧
      Descends s s1 r (level1 v) c1 ∧ Descends s1 s2 r (level2 v) c2 ∧
      Descends s2 s3 r (level3 v) c3 ∧ Installed s3 s' r v p := by
  obtain ⟨s1, s2, s3, c1, c2, c3, hlast, d1, d2, d3⟩ := lastTable_spec hs hfree
  refine ⟨s1, s2, s3, setLeaf s3 (4096 * c3) v p, c1, c2, c3, ?_, d1, d2, d3, ?_⟩
  · rw [mapPage_eq, hlast, Option.map_some]
  · exact setLeaf_spec p d3.inv d3.reaches

/-- Where no table is missing, only the last write changes anything. -/
theorem mapPage_installed {s : Vm} {r v : Nat} (p : Nat) (hs : TreeInv s r)
    (hneed : tablesNeeded s.mem s.pml v = 0) :
    ∃ s', mapPage s v p = some s' ∧ Installed s s' r v p := by
  obtain ⟨s1, s2, s3, s', c1, c2, c3, hmap, d1, d2, d3, d4⟩ :=
    mapPage_steps p hs (hneed ▸ Nat.zero_le _)
  have hpresent : ∀ t q, missing t r q = 0 → follow (slot t.mem) r q ≠ none := by
    intro t q hzero hnone
    rw [missing, if_pos hnone] at hzero
    exact absurd hzero one_ne_zero
  rw [hs.root, tablesNeeded_eq] at hneed
  obtain rfl := d1.kept (hpresent s _ (by omega))
  obtain rfl := d2.kept (hpresent s1 _ (by omega))
  obtain rfl := d3.kept (hpresent s2 _ (by omega))
  exact ⟨s', hmap, d4⟩

end PaskakasaOS.Kernel.Memory.MapPage
