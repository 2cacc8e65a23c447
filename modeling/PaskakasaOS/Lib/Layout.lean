import Mathlib.Algebra.BigOperators.Group.List.Basic
import Mathlib.Algebra.GroupWithZero.Nat

/-!
# Ranges laid end to end

`layout w a sizes` gives every size a start address, so that ranges of
`w * size` bytes follow one another without a gap from `a` on. Blocks of one
length laid end to end are indexed by quotient and remainder.
-/
namespace PaskakasaOS.Lib.Layout

def layout (w : Nat) : Nat → List Nat → List (Nat × Nat)
  | _, [] => []
  | a, s :: sizes => (a, s) :: layout w (a + w * s) sizes

variable {w a s : Nat} {sizes : List Nat} {x : Nat × Nat}

@[simp] theorem layout_nil : layout w a [] = [] := rfl

@[simp] theorem layout_cons : layout w a (s :: sizes) = (a, s) :: layout w (a + w * s) sizes := rfl

theorem layout_append (more : List Nat) :
    layout w a (sizes ++ more) = layout w a sizes ++ layout w (a + w * sizes.sum) more := by
  induction sizes generalizing a with
  | nil => rfl
  | cons s sizes ih =>
    rw [List.cons_append, layout_cons, ih, layout_cons, List.cons_append, List.sum_cons, Nat.mul_add,
      Nat.add_assoc]

theorem layout_snoc :
    layout w a (sizes ++ [s]) = layout w a sizes ++ [(a + w * sizes.sum, s)] :=
  layout_append [s]

/-- Every range lies between the start and the end of the whole. -/
theorem layout_bounds (h : x ∈ layout w a sizes) : a ≤ x.1 ∧ x.1 + w * x.2 ≤ a + w * sizes.sum := by
  induction sizes generalizing a with
  | nil => cases h
  | cons s sizes ih =>
    rw [List.sum_cons, Nat.mul_add]
    rcases List.mem_cons.mp h with rfl | hrest
    · refine ⟨Nat.le_refl _, ?_⟩
      show a + w * s ≤ _
      omega
    · obtain ⟨hl, hu⟩ := ih hrest
      exact ⟨by omega, by omega⟩

theorem mem_sizes (h : x ∈ layout w a sizes) : x.2 ∈ sizes := by
  induction sizes generalizing a with
  | nil => cases h
  | cons s sizes ih =>
    rcases List.mem_cons.mp h with rfl | hrest
    · exact List.mem_cons_self
    · exact List.mem_cons_of_mem s (ih hrest)

/-- Each range ends before the next ones start. -/
theorem layout_pairwise : (layout w a sizes).Pairwise (fun x y => x.1 + w * x.2 ≤ y.1) := by
  induction sizes generalizing a with
  | nil => exact List.Pairwise.nil
  | cons s sizes ih => exact List.Pairwise.cons (fun y hy => (layout_bounds hy).1) ih

/-- Two of the ranges are the same one, or one ends before the other starts. -/
theorem layout_trichotomy {y : Nat × Nat} (hx : x ∈ layout w a sizes) (hy : y ∈ layout w a sizes) :
    x = y ∨ x.1 + w * x.2 ≤ y.1 ∨ y.1 + w * y.2 ≤ x.1 := by
  induction sizes generalizing a with
  | nil => cases hx
  | cons s sizes ih =>
    rcases List.mem_cons.mp hx with rfl | hx' <;> rcases List.mem_cons.mp hy with rfl | hy'
    · exact Or.inl rfl
    · exact Or.inr (Or.inl (layout_bounds hy').1)
    · exact Or.inr (Or.inr (layout_bounds hx').1)
    · exact ih hx' hy'

theorem getElem?_flatMap_blocks {α β : Type*} {f : α → List β} {w : Nat} (hw : 0 < w)
    (hf : ∀ x, (f x).length = w) (l : List α) (j : Nat) :
    (l.flatMap f)[j]? = l[j / w]?.bind (fun x => (f x)[j % w]?) := by
  induction l generalizing j with
  | nil => rfl
  | cons x l ih =>
    rw [List.flatMap_cons]
    by_cases hj : j < w
    · rw [List.getElem?_append_left (by rwa [hf]), Nat.div_eq_of_lt hj, Nat.mod_eq_of_lt hj]
      rfl
    · have hdiv : j / w = (j - w) / w + 1 := Nat.div_eq_sub_div hw (Nat.le_of_not_lt hj)
      have hmod : j % w = (j - w) % w := Nat.mod_eq_sub_mod (Nat.le_of_not_lt hj)
      rw [List.getElem?_append_right (by rw [hf]; exact Nat.le_of_not_lt hj), hf, ih, hdiv, hmod,
        List.getElem?_cons_succ]

end PaskakasaOS.Lib.Layout
