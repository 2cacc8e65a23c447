import Mathlib.Data.List.Basic

/-!
# A list up to its first match

What a search visits that stops behind the first element it looks for, and all of the
list if there is none.
-/
namespace PaskakasaOS.Lib.ThroughFirst

variable {α β : Type*}

def throughFirst (p : α → Bool) : List α → List α
  | [] => []
  | a :: as => if p a then [a] else a :: throughFirst p as

theorem throughFirst_map (p : β → Bool) (f : α → β) (as : List α) :
    throughFirst p (as.map f) = (throughFirst (p ∘ f) as).map f := by
  induction as with
  | nil => rfl
  | cons a as ih =>
    rw [List.map_cons, throughFirst, throughFirst, ih, Function.comp_apply]
    by_cases hp : p (f a)
    · rw [if_pos hp, if_pos hp]
      rfl
    · rw [if_neg hp, if_neg hp]
      rfl

theorem throughFirst_eq_nil_iff {p : α → Bool} {as : List α} : throughFirst p as = [] ↔ as = [] := by
  cases as with
  | nil => exact Iff.rfl
  | cons a as =>
    rw [throughFirst]
    split <;> simp

/-- A search through numbers from `i` on visits `k` of them: none before the last matches,
and the last one does unless all have been visited. -/
theorem throughFirst_range' (p : Nat → Bool) (i n : Nat) :
    ∃ k ≤ n, throughFirst p (List.range' i n) = List.range' i k ∧
      (∀ j, j + 1 < k → ¬ p (i + j)) ∧ (k < n → ∃ j, k = j + 1 ∧ p (i + j)) := by
  induction n generalizing i with
  | zero => exact ⟨0, Nat.le_refl 0, rfl, fun j hj => absurd hj (by omega), fun h => absurd h (by omega)⟩
  | succ n ih =>
    rw [List.range'_succ, throughFirst]
    by_cases hp : p i
    · rw [if_pos hp]
      exact ⟨1, by omega, rfl, fun j hj => absurd hj (by omega), fun _ => ⟨0, rfl, hp⟩⟩
    · obtain ⟨k, hk, hrest, hbefore, hlast⟩ := ih (i + 1)
      have hplace : ∀ j, i + (j + 1) = i + 1 + j := fun j => by omega
      rw [if_neg hp, hrest]
      refine ⟨k + 1, by omega, (List.range'_succ ..).symm, fun j hj => ?_, fun hlt => ?_⟩
      · cases j with
        | zero => exact hp
        | succ j =>
          rw [hplace]
          exact hbefore j (by omega)
      · obtain ⟨j, rfl, hj⟩ := hlast (by omega)
        exact ⟨j + 1, rfl, by rwa [hplace]⟩

theorem mem_throughFirst_range' {p : Nat → Bool} {i n j : Nat} :
    j ∈ throughFirst p (List.range' i n) ↔ i ≤ j ∧ j < i + n ∧ ∀ k, i ≤ k → k < j → ¬ p k := by
  induction n generalizing i with
  | zero => exact iff_of_false List.not_mem_nil fun h => by omega
  | succ n ih =>
    rw [List.range'_succ, throughFirst]
    by_cases hp : p i
    · rw [if_pos hp, List.mem_singleton]
      constructor
      · rintro rfl
        exact ⟨Nat.le_refl j, by omega, fun k hk hlt => absurd hlt (by omega)⟩
      · intro h
        by_contra hne
        exact h.2.2 i (Nat.le_refl i) (by omega) hp
    · rw [if_neg hp, List.mem_cons, ih]
      constructor
      · intro h
        rcases h with rfl | ⟨hle, hlt, hbefore⟩
        · exact ⟨Nat.le_refl j, by omega, fun k hk hlt => absurd hlt (by omega)⟩
        · refine ⟨by omega, by omega, fun k hk hkj => ?_⟩
          by_cases hki : k = i
          · rwa [hki]
          · exact hbefore k (by omega) hkj
      · intro h
        by_cases hji : j = i
        · exact Or.inl hji
        · exact Or.inr ⟨by omega, by omega, fun k hk => h.2.2 k (by omega)⟩

/-- Searches through the same numbers that visit equally many visit the same ones. -/
theorem throughFirst_range'_eq {p q : Nat → Bool} {i n : Nat}
    (h : (throughFirst p (List.range' i n)).length = (throughFirst q (List.range' i n)).length) :
    throughFirst p (List.range' i n) = throughFirst q (List.range' i n) := by
  obtain ⟨k, _, hp, _⟩ := throughFirst_range' p i n
  obtain ⟨l, _, hq, _⟩ := throughFirst_range' q i n
  rw [hp, hq, List.length_range', List.length_range'] at h
  rw [hp, hq, h]

/-- Two searches visit the same values exactly when the values agree as far as they are
visited, and so do the two decisions to go on. -/
theorem throughFirst_map_eq_iff {p q : Nat → Bool} {f g : Nat → β} {i n : Nat} :
    (throughFirst p (List.range' i n)).map f = (throughFirst q (List.range' i n)).map g ↔
      ∀ j < n, (∀ k < j, ¬ q (i + k)) →
        f (i + j) = g (i + j) ∧ (j + 1 < n → (p (i + j) ↔ q (i + j))) := by
  induction n generalizing i with
  | zero => exact iff_of_true rfl fun j hj => absurd hj (Nat.not_lt_zero j)
  | succ n ih =>
    have hplace : ∀ j, i + (j + 1) = i + 1 + j := fun j => by omega
    have hsplit : (throughFirst p (List.range' i (n + 1))).map f =
        (throughFirst q (List.range' i (n + 1))).map g ↔
        f i = g i ∧ (0 < n → (p i ↔ q i)) ∧ (¬ q i →
          (throughFirst p (List.range' (i + 1) n)).map f =
            (throughFirst q (List.range' (i + 1) n)).map g) := by
      have hnil : ∀ (r : Nat → Bool) (h : Nat → β),
          (throughFirst r (List.range' (i + 1) n)).map h = [] ↔ n = 0 := by
        intro r h
        rw [List.map_eq_nil_iff, throughFirst_eq_nil_iff, List.range'_eq_nil_iff]
      rw [List.range'_succ, throughFirst, throughFirst]
      by_cases hp : p i <;> by_cases hq : q i
      · rw [if_pos hp, if_pos hq, List.map_singleton, List.map_singleton, List.singleton_inj]
        simp [hp, hq]
      · rw [if_pos hp, if_neg hq, List.map_singleton, List.map_cons, List.cons.injEq, eq_comm (a := []),
          hnil]
        refine and_congr_right fun _ => ⟨fun hn => ?_, fun h => ?_⟩
        · subst hn
          exact ⟨fun h => absurd h (Nat.lt_irrefl 0), fun _ => rfl⟩
        · by_contra hn
          exact hq ((h.1 (Nat.pos_of_ne_zero hn)).mp hp)
      · rw [if_neg hp, if_pos hq, List.map_singleton, List.map_cons, List.cons.injEq, hnil]
        refine and_congr_right fun _ => ⟨fun hn => ?_, fun h => ?_⟩
        · exact ⟨fun h => absurd h (by omega), fun h => absurd hq h⟩
        · by_contra hn
          exact hp ((h.1 (Nat.pos_of_ne_zero hn)).mpr hq)
      · rw [if_neg hp, if_neg hq, List.map_cons, List.map_cons, List.cons.injEq]
        simp [hp, hq]
    rw [hsplit, ih]
    constructor
    · intro h j hj hbefore
      obtain ⟨hvalue, hdecision, hrest⟩ := h
      cases j with
      | zero => exact ⟨hvalue, fun hn => hdecision (by omega)⟩
      | succ j =>
        have hfirst := hbefore 0 (Nat.succ_pos j)
        obtain ⟨hvalue', hdecision'⟩ := hrest hfirst j (by omega) fun k hk => by
          rw [← hplace]
          exact hbefore (k + 1) (by omega)
        rw [hplace]
        exact ⟨hvalue', fun hn => hdecision' (by omega)⟩
    · intro h
      obtain ⟨hvalue, hdecision⟩ := h 0 (Nat.succ_pos n) fun k hk => absurd hk (Nat.not_lt_zero k)
      refine ⟨hvalue, fun hn => hdecision (by omega), fun hfirst j hj hbefore => ?_⟩
      rw [← hplace]
      obtain ⟨hvalue', hdecision'⟩ := h (j + 1) (by omega) fun k hk => by
        cases k with
        | zero => exact hfirst
        | succ k =>
          rw [hplace]
          exact hbefore k (by omega)
      exact ⟨hvalue', fun hn => hdecision' (by omega)⟩

end PaskakasaOS.Lib.ThroughFirst
