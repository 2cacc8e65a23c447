import Mathlib.Data.Finset.Card

/-!
# Orbits of a partial function

`iter f n a` follows `f` from `a` for `n` steps. Where every point on the way lies in
a finite set, no point is first met later than its size, and an orbit without a
return ends.
-/
namespace PaskakasaOS.Lib.Orbits

variable {α : Type*}

def iter (f : α → Option α) : Nat → α → Option α
  | 0, a => some a
  | n + 1, a => (f a).bind (iter f n)

/-- No point of the orbit of `a` comes back to itself. -/
def Acyclic (f : α → Option α) (a : α) : Prop :=
  ∀ n x k, iter f n a = some x → iter f (k + 1) x ≠ some x

variable {f g : α → Option α} {a b x : α} {i j k m n : Nat}

@[simp] theorem iter_zero : iter f 0 a = some a := rfl

theorem iter_succ_of (h : f a = some b) : iter f (n + 1) a = iter f n b := by
  rw [iter, h, Option.bind_some]

theorem iter_add (f : α → Option α) (m n : Nat) (a : α) :
    iter f (m + n) a = (iter f m a).bind (iter f n) := by
  induction m generalizing a with
  | zero => rw [Nat.zero_add, iter_zero, Option.bind_some]
  | succ m ih =>
    rw [Nat.add_right_comm, iter, iter]
    cases f a with
    | none => rfl
    | some b => exact ih b

theorem iter_snoc (h : iter f n a = some b) : iter f (n + 1) a = f b := by
  rw [iter_add, h, Option.bind_some, iter]
  cases f b <;> rfl

/-- An orbit passes through a point at every step before its last. -/
theorem iter_of_le (hm : m ≤ n) (h : (iter f n a).isSome) : ∃ b, iter f m a = some b := by
  obtain ⟨last, hlast⟩ := Option.isSome_iff_exists.mp h
  rw [← Nat.add_sub_cancel' hm, iter_add] at hlast
  obtain ⟨b, hb, _⟩ := Option.bind_eq_some_iff.mp hlast
  exact ⟨b, hb⟩

/-- A function that agrees with `f` where `f` goes on follows its orbits. -/
theorem iter_mono (hle : ∀ x y, f x = some y → g x = some y) (h : iter f n a = some b) :
    iter g n a = some b := by
  induction n generalizing a with
  | zero => exact h
  | succ n ih =>
    obtain ⟨c, hc, hrest⟩ := Option.bind_eq_some_iff.mp h
    rw [iter_succ_of (hle a c hc)]
    exact ih hrest

/-- An orbit that comes back to its start never ends. -/
theorem iter_isSome_of_return (h : iter f (k + 1) a = some a) (n : Nat) : (iter f n a).isSome := by
  have hmany : ∀ n, iter f (n * (k + 1)) a = some a := by
    intro n
    induction n with
    | zero => rw [Nat.zero_mul, iter_zero]
    | succ n ih => rw [Nat.succ_mul, iter_add, ih, Option.bind_some, h]
  obtain ⟨b, hb⟩ := iter_of_le (Nat.le_mul_of_pos_right n (Nat.succ_pos k))
    (Option.isSome_iff_exists.mpr ⟨a, hmany n⟩)
  exact Option.isSome_iff_exists.mpr ⟨b, hb⟩

/-- The last point of an orbit is the only one. -/
theorem last_unique (hb : iter f m a = some b) (hend : f b = none) (hx : iter f n a = some x)
    (hend' : f x = none) : b = x := by
  have hle : ∀ {m n b x}, iter f m a = some b → f b = none → iter f n a = some x → n ≤ m := by
    intro m n b x hb hend hx
    by_contra hlt
    obtain ⟨c, hc⟩ := iter_of_le (show m + 1 ≤ n by omega) (Option.isSome_iff_exists.mpr ⟨x, hx⟩)
    rw [iter_snoc hb, hend] at hc
    cases hc
  obtain rfl := Nat.le_antisymm (hle hb hend hx) (hle hx hend' hb)
  exact Option.some.inj (hb.symm.trans hx)

/-- An orbit that is over has a last point. -/
theorem exists_last_of_none (h : iter f n a = none) : ∃ m < n, ∃ b, iter f m a = some b ∧ f b = none := by
  induction n generalizing a with
  | zero => cases h
  | succ n ih =>
    cases hc : f a with
    | none => exact ⟨0, Nat.succ_pos n, a, rfl, hc⟩
    | some c =>
      rw [iter_succ_of hc] at h
      obtain ⟨m, hm, b, hb, hend⟩ := ih h
      exact ⟨m + 1, Nat.succ_lt_succ hm, b, by rwa [iter_succ_of hc], hend⟩

section Finite

variable (S : Finset α)

/-- More steps than points: two of them are at the same point. -/
theorem exists_repeat (hlt : S.card < n) (hS : ∀ i < n, ∃ x ∈ S, iter f i a = some x) :
    ∃ i j, i < j ∧ j < n ∧ iter f i a = iter f j a := by
  classical
  have hmaps : ∀ i ∈ Finset.range n, iter f i a ∈ S.map Function.Embedding.some := by
    intro i hi
    obtain ⟨x, hx, hix⟩ := hS i (Finset.mem_range.mp hi)
    rw [hix]
    exact Finset.mem_map.mpr ⟨x, hx, rfl⟩
  obtain ⟨i, hi, j, hj, hne, heq⟩ := Finset.exists_ne_map_eq_of_card_lt_of_maps_to
    (by rwa [Finset.card_map, Finset.card_range]) hmaps
  rw [Finset.mem_range] at hi hj
  rcases Nat.lt_or_gt_of_ne hne with hij | hij
  · exact ⟨i, j, hij, hj, heq⟩
  · exact ⟨j, i, hij, hi, heq.symm⟩

/-- A point of the orbit is met within as many steps as there are points before it. -/
theorem exists_iter_le_card (h : iter f n a = some b)
    (hS : ∀ i < n, ∀ x, iter f i a = some x → x ∈ S) : ∃ m ≤ S.card, iter f m a = some b := by
  induction n using Nat.strong_induction_on with
  | h n ih =>
    by_cases hle : n ≤ S.card
    · exact ⟨n, hle, h⟩
    have hpoint : ∀ i < n, ∃ x ∈ S, iter f i a = some x := by
      intro i hi
      obtain ⟨x, hx⟩ := iter_of_le hi.le (Option.isSome_iff_exists.mpr ⟨b, h⟩)
      exact ⟨x, hS i hi x hx, hx⟩
    obtain ⟨i, j, hij, hj, heq⟩ := exists_repeat S (Nat.lt_of_not_le hle) hpoint
    -- leave out the steps from `i` to `j`
    have hshort : iter f (i + (n - j)) a = some b := by
      rw [iter_add, heq, ← iter_add, Nat.add_sub_cancel' hj.le]
      exact h
    exact ih (i + (n - j)) (by omega) hshort fun k hk => hS k (by omega)

/-- Without a return the orbit ends at one of its points. -/
theorem exists_last (hS : ∀ n x, iter f n a = some x → x ∈ S) (hac : Acyclic f a) :
    ∃ m < S.card, ∃ b, iter f m a = some b ∧ f b = none := by
  have hnone : ∃ k, k ≤ S.card ∧ iter f k a = none := by
    by_contra hall
    push Not at hall
    have hpoint : ∀ i < S.card + 1, ∃ x ∈ S, iter f i a = some x := by
      intro i hi
      obtain ⟨x, hx⟩ := Option.ne_none_iff_exists'.mp (hall i (Nat.le_of_lt_succ hi))
      exact ⟨x, hS i x hx, hx⟩
    obtain ⟨i, j, hij, hj, heq⟩ := exists_repeat S (Nat.lt_succ_self _) hpoint
    obtain ⟨x, _, hx⟩ := hpoint i (by omega)
    have hreturn : iter f (j - i - 1 + 1) x = some x := by
      have hj' : iter f (i + (j - i)) a = some x := by
        rw [Nat.add_sub_cancel' hij.le, ← heq, hx]
      rw [iter_add, hx, Option.bind_some] at hj'
      rwa [show j - i - 1 + 1 = j - i by omega]
    exact hac i x _ hx hreturn
  obtain ⟨k, hk, hend⟩ := hnone
  obtain ⟨m, hm, hlast⟩ := exists_last_of_none hend
  exact ⟨m, by omega, hlast⟩

end Finite

end PaskakasaOS.Lib.Orbits
