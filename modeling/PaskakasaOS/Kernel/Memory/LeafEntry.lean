import PaskakasaOS.Kernel.Memory.AddressSpace

/-!
# The leaf entries `map_page` stores

An entry for a table is masked to the frame of the table. The leaf takes the physical
address as the caller gave it, so the offset of the address in its page falls on the
flags of the entry.
-/
namespace PaskakasaOS.Kernel.Memory.LeafEntry

open Lib.ByteMemory Lib.TableTree
open Vmm VmmTree MapPage AddressSpace Pmm

/-- The page frame of `p` with the three flags and no others. -/
def intendedLeaf (p : Nat) : Nat := p / 0x1000 * 0x1000 ||| PAT ||| PRESENT ||| WRITABLE

/-- Of the bits of `p` that fall on flags, only those of the three flags are set. -/
def OffsetSuits (p : Nat) : Prop := ∀ i < 12, p.testBit i → i = 0 ∨ i = 1 ∨ i = 7

instance (p : Nat) : Decidable (OffsetSuits p) :=
  inferInstanceAs (Decidable (∀ i < 12, p.testBit i → i = 0 ∨ i = 1 ∨ i = 7))

/-- `map_page(v, p)` finds the leaf of `v` absent and leaves `e` in its place. -/
def StoresLeaf (s : Vm) (v p e : Nat) : Prop :=
  ∃ pt t s', lastTable s v = some (pt, t) ∧ entry t.mem pt (ptIndex v) &&& PRESENT = 0 ∧
    mapPage s v p = some s' ∧ entry s'.mem pt (ptIndex v) = e

variable {s : Vm} {v p e : Nat}

theorem storesLeaf_eq (h : StoresLeaf s v p e) : e = (p ||| PAT ||| PRESENT ||| WRITABLE) % 2 ^ 64 := by
  obtain ⟨pt, t, s', hlast, habsent, hmap, he⟩ := h
  rw [mapPage_eq, hlast, Option.map_some, setLeaf, if_pos habsent] at hmap
  obtain rfl := Option.some.inj hmap
  rw [← he]
  exact entry_setEntry_same t.mem pt _ _

/-- From every reachable state, a page that is not mapped yet gets a leaf. -/
theorem storesLeaf_of_unmapped (hs : Reachable s) (hv : walk s.mem s.pml v = none) (p : Nat)
    (hfree : tablesNeeded s.mem s.pml v ≤ freeFrames s.pool) : ∃ e, StoresLeaf s v p e := by
  obtain ⟨r, hinv⟩ := hs.treeInv
  obtain ⟨s1, s2, s3, c1, c2, c3, hlast, d1, d2, d3⟩ := lastTable_spec hinv hfree
  have hunmapped : follow (slot s3.mem) r (path v) = none := by
    rw [hinv.root, walk_eq_slots, Option.map_eq_none_iff] at hv
    rw [d3.path (by simp), d2.path (by simp), d1.path (by simp), hv]
  rw [path_eq, follow_step d3.reaches, slot, decode] at hunmapped
  have habsent : entry s3.mem (4096 * c3) (ptIndex v) % 2 = 0 := by
    by_contra hpresent
    rw [if_neg hpresent] at hunmapped
    cases hunmapped
  have hmap : mapPage s v p = some (setLeaf s3 (4096 * c3) v p) := by
    rw [mapPage_eq, hlast, Option.map_some]
  exact ⟨_, 4096 * c3, s3, _, hlast, by rw [and_present, habsent], hmap, rfl⟩

/-! ## The bits of the offset -/

/-- The flags join the page offset; the frame is not touched. -/
theorem or_flags (p : Nat) :
    p ||| PAT ||| PRESENT ||| WRITABLE = p / 0x1000 * 0x1000 + (p % 0x1000 ||| 0x83) := by
  have hflags : p % 0x1000 ||| 0x83 < 2 ^ 12 :=
    Nat.or_lt_two_pow (Nat.mod_lt p (by decide)) (by decide)
  have hsplit : p = 2 ^ 12 * (p / 0x1000) ||| p % 0x1000 := by
    rw [← Nat.two_pow_add_eq_or_of_lt (Nat.mod_lt p (by decide))]
    exact (Nat.div_add_mod p 0x1000).symm
  have hconst : PAT ||| PRESENT ||| WRITABLE = 0x83 := by decide
  calc p ||| PAT ||| PRESENT ||| WRITABLE
      = p ||| 0x83 := by rw [← hconst, Nat.or_assoc, Nat.or_assoc, Nat.or_assoc]
    _ = 2 ^ 12 * (p / 0x1000) ||| (p % 0x1000 ||| 0x83) := by rw [← Nat.or_assoc, ← hsplit]
    _ = p / 0x1000 * 0x1000 + (p % 0x1000 ||| 0x83) := by
        rw [← Nat.two_pow_add_eq_or_of_lt hflags, Nat.mul_comm]

theorem intendedLeaf_eq (p : Nat) : intendedLeaf p = p / 0x1000 * 0x1000 + 0x83 := by
  have hdiv : p / 0x1000 * 0x1000 / 0x1000 = p / 0x1000 := Nat.mul_div_cancel _ (by decide)
  rw [intendedLeaf, or_flags, hdiv, Nat.mul_mod_left]
  rfl

theorem or_flags_eq_iff (p : Nat) : p % 0x1000 ||| 0x83 = 0x83 ↔ OffsetSuits p := by
  have hflags : ∀ i < 12, Nat.testBit 0x83 i = true → i = 0 ∨ i = 1 ∨ i = 7 := by decide
  have hbit : ∀ i, (p % 0x1000).testBit i = (decide (i < 12) && p.testBit i) :=
    fun i => Nat.testBit_mod_two_pow p 12 i
  constructor
  · intro h i hi hset
    have hflag : (p % 0x1000 ||| 0x83).testBit i = true := by
      rw [Nat.testBit_or, hbit, hset, decide_eq_true hi]
      rfl
    rw [h] at hflag
    exact hflags i hi hflag
  · intro h
    apply Nat.eq_of_testBit_eq
    intro i
    rw [Nat.testBit_or, hbit]
    by_cases hset : i < 12 ∧ p.testBit i
    · have hflag : Nat.testBit 0x83 i = true := by
        rcases h i hset.1 hset.2 with rfl | rfl | rfl <;> decide
      rw [hflag, Bool.or_true]
    · have hclear : (decide (i < 12) && p.testBit i) = false := by simpa using hset
      rw [hclear, Bool.false_or]

/-- The leaf is the intended one exactly when the offset of the address sets no other flag. -/
theorem mapPage_leaf_iff (hp : p < 2 ^ 64) (h : StoresLeaf s v p e) :
    e = intendedLeaf p ↔ OffsetSuits p := by
  have hlt : p ||| PAT ||| PRESENT ||| WRITABLE < 2 ^ 64 :=
    Nat.or_lt_two_pow (Nat.or_lt_two_pow (Nat.or_lt_two_pow hp (by decide)) (by decide)) (by decide)
  rw [storesLeaf_eq h, Nat.mod_eq_of_lt hlt, or_flags, intendedLeaf_eq, Nat.add_left_cancel_iff,
    or_flags_eq_iff]

/-- The offset `0x81` consists of flags that are set anyway. -/
theorem mapPage_leaf_iff_flags : StoresLeaf sampleVm 0x7FE0081 0x7FE0081 (intendedLeaf 0x7FE0081) := by
  obtain ⟨e, he⟩ := storesLeaf_of_unmapped sampleVm_reachable (sampleVm_unmapped 0x7FE0081) 0x7FE0081
    ((tablesNeeded_le_three _ _ _).trans (by decide +kernel))
  have hintended : e = intendedLeaf 0x7FE0081 := (mapPage_leaf_iff (by decide) he).mpr (by decide)
  rwa [hintended] at he

/-- A table of the firmware at `0x7FE0044` becomes accessible to user code. -/
theorem mapPage_leaf_user :
    ∃ e, StoresLeaf sampleVm 0x7FE0044 0x7FE0044 e ∧ e ≠ intendedLeaf 0x7FE0044 := by
  obtain ⟨e, he⟩ := storesLeaf_of_unmapped sampleVm_reachable (sampleVm_unmapped 0x7FE0044) 0x7FE0044
    ((tablesNeeded_le_three _ _ _).trans (by decide +kernel))
  refine ⟨e, he, ?_⟩
  rw [storesLeaf_eq he]
  decide

end PaskakasaOS.Kernel.Memory.LeafEntry
