import Mathlib.Algebra.BigOperators.Group.List.Basic
import Mathlib.Data.List.GetD
import PaskakasaOS.Lib.ByteMemory

/-!
# Packed records

A packed record is a sequence of little-endian fields with nothing between them,
described by the list of their widths. Fields are read and written by number.
-/
namespace PaskakasaOS.Lib.PackedRecord

open ByteMemory

/-- Where field `i` begins. -/
def offset (widths : List Nat) (i : Nat) : Nat := (widths.take i).sum

/-- Field `i` of the record at `a`. -/
def getField (widths : List Nat) (m : Memory) (a i : Nat) : Nat :=
  readLE (widths.getD i 0) m (a + offset widths i)

/-- Store field `i` of the record at `a`; bits beyond its width are dropped. -/
def setField (widths : List Nat) (m : Memory) (a i value : Nat) : Memory :=
  writeLE (widths.getD i 0) m (a + offset widths i) value

variable {widths : List Nat} {m m' : Memory} {a b i j v : Nat}

theorem offset_succ (hi : i < widths.length) :
    offset widths (i + 1) = offset widths i + widths.getD i 0 := by
  rw [offset, offset, List.sum_take_succ widths i hi, List.getD_eq_getElem _ 0 hi]

/-- Every field lies inside the record. -/
theorem offset_add_le (hi : i < widths.length) :
    offset widths i + widths.getD i 0 ≤ widths.sum := by
  rw [← offset_succ hi, offset]
  calc (widths.take (i + 1)).sum
      ≤ (widths.take (i + 1)).sum + (widths.drop (i + 1)).sum := Nat.le_add_right _ _
    _ = widths.sum := List.sum_take_add_sum_drop widths (i + 1)

/-- A field ends before the later ones begin. -/
theorem offset_le_of_lt (hij : i < j) (hj : j ≤ widths.length) :
    offset widths i + widths.getD i 0 ≤ offset widths j := by
  induction j with
  | zero => exact absurd hij (Nat.not_lt_zero i)
  | succ j ih =>
    rw [offset_succ (Nat.lt_of_succ_le hj)]
    rcases Nat.lt_succ_iff_lt_or_eq.mp hij with hlt | rfl
    · exact (ih hlt (Nat.le_of_succ_le hj)).trans (Nat.le_add_right _ _)
    · exact Nat.le_refl _

theorem getField_congr (hi : i < widths.length)
    (h : ∀ k < widths.sum, m (a + k) = m' (b + k)) :
    getField widths m a i = getField widths m' b i := by
  have hin := offset_add_le hi
  rw [getField, getField, ← readLE_shift _ m a, ← readLE_shift _ m' b]
  apply readLE_congr
  intro k hk
  exact h _ (by omega)

@[simp] theorem getField_setField_self :
    getField widths (setField widths m a i v) a i = v % 256 ^ widths.getD i 0 :=
  readLE_writeLE _ m _ v

theorem getField_setField_of_ne (hij : i ≠ j) (hi : i < widths.length) (hj : j < widths.length) :
    getField widths (setField widths m a i v) a j = getField widths m a j := by
  apply readLE_writeLE_disjoint
  rcases Nat.lt_or_gt_of_ne hij with hlt | hlt
  · have hbefore := offset_le_of_lt hlt hj.le
    omega
  · have hbefore := offset_le_of_lt hlt hi.le
    omega

theorem setField_outside (hi : i < widths.length) (hb : b < a ∨ a + widths.sum ≤ b) :
    setField widths m a i v b = m b := by
  have hin := offset_add_le hi
  exact writeLE_outside (by omega)

/-! ## Whole records -/

/-- Store the first `n` fields, in their order. -/
def storeFields (widths : List Nat) (m : Memory) (a : Nat) (values : List Nat) : Nat → Memory
  | 0 => m
  | n + 1 => setField widths (storeFields widths m a values n) a n (values.getD n 0)

variable {values : List Nat} {n : Nat}

theorem getField_storeFields (hn : n ≤ widths.length) (hi : i < n) :
    getField widths (storeFields widths m a values n) a i =
      values.getD i 0 % 256 ^ widths.getD i 0 := by
  induction n with
  | zero => exact absurd hi (Nat.not_lt_zero i)
  | succ n ih =>
    rw [storeFields]
    rcases Nat.lt_succ_iff_lt_or_eq.mp hi with hlt | rfl
    · rw [getField_setField_of_ne (by omega) (by omega) (by omega)]
      exact ih (by omega) hlt
    · exact getField_setField_self

end PaskakasaOS.Lib.PackedRecord
