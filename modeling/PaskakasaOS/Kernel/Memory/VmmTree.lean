import Mathlib.Data.Nat.Bitwise
import PaskakasaOS.Lib.TableTree
import PaskakasaOS.Kernel.Memory.Vmm

/-!
# The page tables as a tree of frames

Frame `f` holds the 512 slots stored at `4096 * f`. `map_page` walks and grows
the resulting store of slots exactly as `TableTree` describes: a missing table
is a linked fresh frame, and the last write installs one mapping.
-/
namespace PaskakasaOS.Kernel.Memory.VmmTree

open Lib.ByteMemory Lib.TableTree
open Utils.Mem (memset memset_eq_fill)
open Pmm Vmm

abbrev Path := List (Fin 512)

/-- The frame number in an entry, when the entry is present. -/
def decode (e : Nat) : Option Nat := if e % 2 = 0 then none else some (e / 4096 % 2 ^ 40)

def slot (m : Memory) (f : Nat) (i : Fin 512) : Option Nat := decode (entry m (4096 * f) i)

theorem pml4Index_lt (v : Nat) : pml4Index v < 512 := Nat.and_lt_two_pow (n := 9) _ (by decide)
theorem pudIndex_lt (v : Nat) : pudIndex v < 512 := Nat.and_lt_two_pow (n := 9) _ (by decide)
theorem pmdIndex_lt (v : Nat) : pmdIndex v < 512 := Nat.and_lt_two_pow (n := 9) _ (by decide)
theorem ptIndex_lt (v : Nat) : ptIndex v < 512 := Nat.and_lt_two_pow (n := 9) _ (by decide)

/-- The four indices of the page of `v`, top level first. -/
def path (v : Nat) : Path :=
  [⟨pml4Index v, pml4Index_lt v⟩, ⟨pudIndex v, pudIndex_lt v⟩,
    ⟨pmdIndex v, pmdIndex_lt v⟩, ⟨ptIndex v, ptIndex_lt v⟩]

/-! ## Entries -/

theorem and_present (e : Nat) : e &&& PRESENT = e % 2 := Nat.and_one_is_mod e

/-- Masking with `k` ones above the page offset keeps `k` bits of the page number. -/
theorem and_page_mask (e k : Nat) : e &&& (2 ^ 12 * (2 ^ k - 1)) = 4096 * (e / 4096 % 2 ^ k) := by
  rw [show (4096 : Nat) = 2 ^ 12 by rfl]
  apply Nat.eq_of_testBit_eq
  intro j
  simp only [Nat.testBit_and, Nat.testBit_two_pow_mul, Nat.testBit_two_pow_sub_one,
    Nat.testBit_mod_two_pow, Nat.testBit_div_two_pow]
  by_cases hj : 12 ≤ j
  · rw [Nat.sub_add_cancel hj]
    cases e.testBit j <;> simp [hj]
  · simp [hj]

theorem and_address_mask (e : Nat) : e &&& ADDRESS_MASK = 4096 * (e / 4096 % 2 ^ 40) :=
  and_page_mask e 40

/-- Flags in the low 12 bits neither hide the frame nor change it. -/
theorem decode_flags (p flags : Nat) (hodd : flags % 2 = 1) (hlow : flags < 4096) :
    decode (p ||| flags) = some (p / 4096 % 2 ^ 40) := by
  have hdiv : (p ||| flags) / 4096 = p / 4096 := by
    have hshift := Nat.shiftRight_or_distrib (a := p) (b := flags) (i := 12)
    simp only [Nat.shiftRight_eq_div_pow] at hshift
    have hzero : flags / 2 ^ 12 = 0 := Nat.div_eq_of_lt hlow
    rw [show (4096 : Nat) = 2 ^ 12 by rfl, hshift, hzero, Nat.or_zero]
  have hmod : (p ||| flags) % 2 = 1 := by
    rw [Nat.or_mod_two_eq_one]
    exact Or.inr hodd
  rw [decode, if_neg (by omega), hdiv]

theorem decode_mod (e : Nat) : decode (e % 2 ^ 64) = decode e := by
  have hmod : e % 2 ^ 64 % 2 = e % 2 := by omega
  have hdiv : e % 2 ^ 64 / 4096 % 2 ^ 40 = e / 4096 % 2 ^ 40 := by omega
  rw [decode, decode, hmod, hdiv]

theorem entry_setEntry_same (m : Memory) (t i e : Nat) : entry (setEntry m t i e) t i = e % 2 ^ 64 :=
  readLE_writeLE 8 m _ e

theorem entry_setEntry_other {m : Memory} {t i t' i' e : Nat}
    (h : t + 8 * i + 8 ≤ t' + 8 * i' ∨ t' + 8 * i' + 8 ≤ t + 8 * i) :
    entry (setEntry m t i e) t' i' = entry m t' i' :=
  readLE_writeLE_disjoint h

theorem slot_setEntry (m : Memory) (f : Nat) (i : Fin 512) (e : Nat) :
    slot (setEntry m (4096 * f) i e) = setSlot (slot m) f i (decode e) := by
  funext f' i'
  by_cases h : f' = f ∧ i' = i
  · obtain ⟨rfl, rfl⟩ := h
    rw [slot, entry_setEntry_same, decode_mod, setSlot, if_pos ⟨rfl, rfl⟩]
  · have hi := i.isLt
    have hi' := i'.isLt
    have hne : ¬ (f' = f ∧ i'.val = i.val) := fun hh => h ⟨hh.1, Fin.ext hh.2⟩
    rw [setSlot, if_neg h, slot, entry_setEntry_other (by omega), slot]

theorem slot_fill (m : Memory) (c : Nat) : slot (fill m (4096 * c) 0x1000 0) = clear (slot m) c := by
  funext f i
  have hi := i.isLt
  by_cases h : f = c
  · subst h
    rw [slot, entry, readLE_fill_zero (by omega) (by omega), clear, if_pos rfl]
    rfl
  · rw [clear, if_neg h, slot, entry, readLE_fill_disjoint 0 (by omega), slot, entry]

theorem target_eq (m : Memory) (f : Nat) (i : Fin 512) :
    target m (4096 * f) i = (slot m f i).map (4096 * ·) := by
  rw [target, slot, decode, and_present, and_address_mask]
  split <;> rfl

/-- The slots as the tables hold them, by address. -/
def tables (m : Memory) (t : Nat) (i : Fin 512) : Option Nat := target m t i

/-- The tables reachable from `pml` form a tree: no frame has two parents. -/
def NoSharing (m : Memory) (pml : Nat) : Prop := Tree (tables m) pml 3

theorem follow_tables (m : Memory) (r : Nat) (q : Path) :
    follow (tables m) (4096 * r) q = (follow (slot m) r q).map (4096 * ·) := by
  induction q using List.reverseRecOn with
  | nil => rfl
  | append_singleton q i ih =>
    rw [follow_snoc, follow_snoc, ih]
    cases follow (slot m) r q with
    | none => rfl
    | some t =>
      simp only [Option.map_some, Option.bind_some]
      exact target_eq m t i

theorem walk_eq_follow (m : Memory) (pml v : Nat) : walk m pml v = follow (tables m) pml (path v) := by
  simp [walk, follow, Lib.Runs.run, path, tables]

/-- The processor's walk follows the path of the address through the slots. -/
theorem walk_eq_slots (m : Memory) (r v : Nat) :
    walk m (4096 * r) v = (follow (slot m) r (path v)).map (4096 * ·) := by
  rw [walk_eq_follow, follow_tables]

theorem noSharing_of_tree {m : Memory} {r : Nat} (h : Tree (slot m) r 3) :
    NoSharing m (4096 * r) := by
  intro p q t hp hq hfp hfq
  rw [follow_tables] at hfp hfq
  obtain ⟨f, hf, rfl⟩ := Option.map_eq_some_iff.mp hfp
  obtain ⟨g, hg, hgf⟩ := Option.map_eq_some_iff.mp hfq
  obtain rfl : g = f := by omega
  exact h p q g hp hq hf hg

end PaskakasaOS.Kernel.Memory.VmmTree
