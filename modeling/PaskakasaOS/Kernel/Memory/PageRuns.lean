import Mathlib.Data.Finset.Card
import PaskakasaOS.Kernel.Memory.AddressSpace

/-!
# Runs of `map_page` and the frames they consume

A list of calls maps every page to what the first call for that page says. The
tables a run creates are the proper prefixes of the paths it maps, so the frames
it takes are counted by a finite set of paths.
-/
namespace PaskakasaOS.Kernel.Memory.PageRuns

open Lib.TableTree Lib.Runs
open Pmm Vmm VmmTree MapPage AddressSpace

/-- A `map_page` call: virtual and physical address. -/
abbrev Call := Nat × Nat

def mapCall (s : Vm) (c : Call) : Option Vm := mapPage s c.1 c.2

/-- The paths of the tables on the way to the page of `v`. -/
def levels (v : Nat) : Finset Path := {level1 v, level2 v, level3 v}

def tablePaths : List Call → Finset Path
  | [] => ∅
  | c :: calls => levels c.1 ∪ tablePaths calls

/-- The frame the first call for the page of `v` gives it. -/
def lookup (calls : List Call) (v : Nat) : Option Nat :=
  (calls.find? (fun c => path c.1 = path v)).map (fun c => c.2 / 4096 % 2 ^ 40)

/-- The tables below the root are those at the paths in `S`, and the frames left
and the frames used for them add up to `F`. -/
structure Counted (s : Vm) (r : Nat) (S : Finset Path) (F : Nat) : Prop where
  tables : ∀ q, 1 ≤ q.length → q.length ≤ 3 → (follow (slot s.mem) r q ≠ none ↔ q ∈ S)
  frames : freeFrames s.pool + S.card = F

theorem Descends.counted {s s' : Vm} {r c F : Nat} {q : Path} {S : Finset Path}
    (hc : Counted s r S F) (hd : Descends s s' r q c) (h1 : 1 ≤ q.length) (h3 : q.length ≤ 3) :
    Counted s' r (insert q S) F := by
  by_cases hq : q ∈ S
  · have hsome := (hc.tables q h1 h3).mpr hq
    rw [hd.kept hsome, Finset.insert_eq_of_mem hq]
    exact hc
  · have hnone : follow (slot s.mem) r q = none := by
      by_contra h
      exact hq ((hc.tables q h1 h3).mp h)
    constructor
    · intro q' hq1 hq3
      by_cases he : q' = q
      · subst he
        simp [hd.reaches]
      · rw [hd.other q' (by omega) he, hc.tables q' hq1 hq3]
        simp [he]
    · have hf := hd.frames
      have hold := hc.frames
      rw [if_pos hnone] at hf
      rw [Finset.card_insert_of_notMem hq]
      omega

theorem levels_card_union {s : Vm} {r v F : Nat} {S : Finset Path} (hc : Counted s r S F) :
    (S ∪ levels v).card =
      S.card + (missing s r (level1 v) + missing s r (level2 v) + missing s r (level3 v)) := by
  have hmiss : ∀ q : Path, 1 ≤ q.length → q.length ≤ 3 → missing s r q = if q ∈ S then 0 else 1 := by
    intro q h1 h3
    rw [missing]
    by_cases hq : q ∈ S
    · rw [if_neg ((hc.tables q h1 h3).mpr hq), if_pos hq]
    · rw [if_neg hq, if_pos (by_contra fun h => hq ((hc.tables q h1 h3).mp h))]
  have h12 : level1 v ≠ level2 v := by simp [level2, level1]
  have h13 : level1 v ≠ level3 v := by simp [level3, level2, level1]
  have h23 : level2 v ≠ level3 v := by simp [level3, level2, level1]
  have hunion : S ∪ levels v = insert (level3 v) (insert (level2 v) (insert (level1 v) S)) := by
    ext q
    simp only [levels, Finset.mem_union, Finset.mem_insert, Finset.mem_singleton]
    tauto
  rw [hunion, hmiss _ (by simp) (by simp), hmiss _ (by simp) (by simp), hmiss _ (by simp) (by simp)]
  rw [Finset.card_insert_eq_ite, Finset.card_insert_eq_ite, Finset.card_insert_eq_ite]
  simp only [Finset.mem_insert, h12.symm, h13.symm, h23.symm, false_or]
  split <;> split <;> split <;> omega

/-- One call adds the tables on the way to its page. -/
theorem mapCall_counted {s : Vm} {r F : Nat} {S : Finset Path} (c : Call) (hs : TreeInv s r)
    (hc : Counted s r S F) (hcard : (S ∪ levels c.1).card ≤ F) :
    ∃ s', mapCall s c = some s' ∧ Mapped s s' r c.1 c.2 ∧ Counted s' r (S ∪ levels c.1) F := by
  have hframes := hc.frames
  have hneed : tablesNeeded s.mem s.pml c.1 ≤ freeFrames s.pool := by
    rw [levels_card_union hc] at hcard
    rw [hs.root, tablesNeeded_eq]
    omega
  obtain ⟨s', hmap, hm⟩ := mapPage_spec c.2 hs hneed
  obtain ⟨s1, s2, s3, s'', c1, c2, c3, hmap', d1, d2, d3, d4⟩ := mapPage_steps c.2 hs hneed
  obtain rfl : s'' = s' := Option.some.inj (hmap'.symm.trans hmap)
  have hc3 := Descends.counted (Descends.counted (Descends.counted hc d1 (by simp) (by simp))
    d2 (by simp) (by simp)) d3 (by simp) (by simp)
  refine ⟨s'', hmap, hm, ?_, ?_⟩
  · intro q h1 h3
    have hne : q ≠ path c.1 := by
      rintro rfl
      simp [path] at h3
    rw [d4.other q (by omega) hne, hc3.tables q h1 h3]
    simp only [levels, Finset.mem_union, Finset.mem_insert, Finset.mem_singleton]
    tauto
  · have hf := hm.frames
    rw [hs.root, tablesNeeded_eq] at hf
    rw [levels_card_union hc]
    omega

theorem lookup_cons (c : Call) (calls : List Call) (v : Nat) :
    lookup (c :: calls) v =
      if path c.1 = path v then some (c.2 / 4096 % 2 ^ 40) else lookup calls v := by
  by_cases h : path c.1 = path v
  · rw [if_pos h, lookup, List.find?_cons_of_pos (by simpa using h), Option.map_some]
  · rw [if_neg h, lookup, List.find?_cons_of_neg (by simpa using h), lookup]

/-- A run with a frame for every table it creates maps each page as its first
call says, and takes exactly one frame a table. -/
theorem run_mapCall {s : Vm} {r F : Nat} {S : Finset Path} {calls : List Call} (hs : TreeInv s r)
    (hc : Counted s r S F) (hcard : (S ∪ tablePaths calls).card ≤ F) :
    ∃ s', run mapCall s calls = some s' ∧ TreeInv s' r ∧ Counted s' r (S ∪ tablePaths calls) F ∧
      ∀ v, follow (slot s'.mem) r (path v) =
        (follow (slot s.mem) r (path v)).or (lookup calls v) := by
  induction calls generalizing s S with
  | nil =>
    refine ⟨s, rfl, hs, ?_, ?_⟩
    · simpa [tablePaths] using hc
    · intro v
      simp [lookup]
  | cons c calls ih =>
    have hassoc : S ∪ tablePaths (c :: calls) = S ∪ levels c.1 ∪ tablePaths calls := by
      rw [tablePaths, Finset.union_assoc]
    rw [hassoc] at hcard ⊢
    have hfirst : (S ∪ levels c.1).card ≤ F :=
      (Finset.card_le_card Finset.subset_union_left).trans hcard
    obtain ⟨t, hstep, hmapped, hcount⟩ := mapCall_counted c hs hc hfirst
    obtain ⟨s', hrun, hinv, hcount', hwalk⟩ := ih hmapped.inv hcount hcard
    refine ⟨s', by rw [run_cons, hstep, Option.bind_some, hrun], hinv, hcount', ?_⟩
    intro v
    rw [hwalk v, lookup_cons]
    by_cases hv : path v = path c.1
    · rw [if_pos hv.symm, hv, hmapped.page]
      cases follow (slot s.mem) r (path c.1) <;> simp
    · rw [if_neg (Ne.symm hv), hmapped.other v hv]

theorem lookup_of_mem {calls : List Call} {v f : Nat} {c : Call} (hmem : c ∈ calls)
    (hpath : path c.1 = path v)
    (hall : ∀ c ∈ calls, path c.1 = path v → c.2 / 4096 % 2 ^ 40 = f) : lookup calls v = some f := by
  induction calls with
  | nil => simp at hmem
  | cons d calls ih =>
    rw [lookup_cons]
    split
    · next hd => rw [hall d List.mem_cons_self hd]
    · next hd =>
      rcases List.mem_cons.mp hmem with rfl | hrest
      · exact absurd hpath hd
      · exact ih hrest (fun e he => hall e (List.mem_cons_of_mem d he))

theorem lookup_of_not_mem {calls : List Call} {v : Nat} (h : ∀ c ∈ calls, path c.1 ≠ path v) :
    lookup calls v = none := by
  rw [lookup, List.find?_eq_none.mpr (by simpa using h), Option.map_none]

/-! ## Paths as numbers -/

theorem pml4Index_eq (v : Nat) : pml4Index v = v / 2 ^ 39 % 512 := by
  rw [pml4Index, Nat.shiftRight_eq_div_pow]
  exact Nat.and_two_pow_sub_one_eq_mod _ 9

theorem pudIndex_eq (v : Nat) : pudIndex v = v / 2 ^ 30 % 512 := by
  rw [pudIndex, Nat.shiftRight_eq_div_pow]
  exact Nat.and_two_pow_sub_one_eq_mod _ 9

theorem pmdIndex_eq (v : Nat) : pmdIndex v = v / 2 ^ 21 % 512 := by
  rw [pmdIndex, Nat.shiftRight_eq_div_pow]
  exact Nat.and_two_pow_sub_one_eq_mod _ 9

theorem ptIndex_eq (v : Nat) : ptIndex v = v / 2 ^ 12 % 512 := by
  rw [ptIndex, Nat.shiftRight_eq_div_pow]
  exact Nat.and_two_pow_sub_one_eq_mod _ 9

/-- Two addresses share their path when bits 12 to 47 agree. -/
theorem path_eq_iff (v w : Nat) : path v = path w ↔ v / 2 ^ 12 % 2 ^ 36 = w / 2 ^ 12 % 2 ^ 36 := by
  simp only [path, List.cons.injEq, Fin.mk.injEq, and_true, pml4Index_eq, pudIndex_eq,
    pmdIndex_eq, ptIndex_eq]
  omega

def pathOf1 (k : Nat) : Path := [Fin.ofNat 512 k]
def pathOf2 (k : Nat) : Path := [Fin.ofNat 512 (k / 512), Fin.ofNat 512 k]
def pathOf3 (k : Nat) : Path := [Fin.ofNat 512 (k / 2 ^ 18), Fin.ofNat 512 (k / 512), Fin.ofNat 512 k]

theorem level1_eq (v : Nat) : level1 v = pathOf1 (v / 2 ^ 39) := by
  simp [level1, pathOf1, Fin.ofNat, pml4Index_eq]

theorem level2_eq (v : Nat) : level2 v = pathOf2 (v / 2 ^ 30) := by
  simp only [level2, level1, pathOf2, Fin.ofNat, pml4Index_eq, pudIndex_eq, List.cons_append,
    List.nil_append, List.cons.injEq, Fin.mk.injEq, and_true]
  omega

theorem level3_eq (v : Nat) : level3 v = pathOf3 (v / 2 ^ 21) := by
  simp only [level3, level2, level1, pathOf3, Fin.ofNat, pml4Index_eq, pudIndex_eq, pmdIndex_eq,
    List.cons_append, List.nil_append, List.cons.injEq, Fin.mk.injEq, and_true]
  omega

/-- The tables of a run are at most as many as the 512 GiB, 1 GiB and 2 MiB
regions its pages lie in. -/
theorem tablePaths_card_le {calls : List Call} {A B C : Finset Nat}
    (h : ∀ c ∈ calls, c.1 / 2 ^ 39 ∈ A ∧ c.1 / 2 ^ 30 ∈ B ∧ c.1 / 2 ^ 21 ∈ C) :
    (tablePaths calls).card ≤ A.card + B.card + C.card := by
  have hsub : tablePaths calls ⊆ A.image pathOf1 ∪ B.image pathOf2 ∪ C.image pathOf3 := by
    induction calls with
    | nil => exact Finset.empty_subset _
    | cons c calls ih =>
      apply Finset.union_subset
      · obtain ⟨hA, hB, hC⟩ := h c List.mem_cons_self
        intro q hq
        simp only [levels, Finset.mem_insert, Finset.mem_singleton] at hq
        simp only [Finset.mem_union, Finset.mem_image]
        rcases hq with rfl | rfl | rfl
        · exact Or.inl (Or.inl ⟨_, hA, (level1_eq c.1).symm⟩)
        · exact Or.inl (Or.inr ⟨_, hB, (level2_eq c.1).symm⟩)
        · exact Or.inr ⟨_, hC, (level3_eq c.1).symm⟩
      · exact ih (fun d hd => h d (List.mem_cons_of_mem c hd))
  calc (tablePaths calls).card
      ≤ (A.image pathOf1 ∪ B.image pathOf2 ∪ C.image pathOf3).card := Finset.card_le_card hsub
    _ ≤ (A.image pathOf1).card + (B.image pathOf2).card + (C.image pathOf3).card :=
        (Finset.card_union_le _ _).trans (Nat.add_le_add_right (Finset.card_union_le _ _) _)
    _ ≤ A.card + B.card + C.card :=
        Nat.add_le_add (Nat.add_le_add Finset.card_image_le Finset.card_image_le) Finset.card_image_le

end PaskakasaOS.Kernel.Memory.PageRuns
