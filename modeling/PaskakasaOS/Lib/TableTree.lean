import Mathlib.Order.Nat
import PaskakasaOS.Lib.Runs

/-!
# Trees of fixed-size tables

A store gives every table `t` and index `i` an optional successor. Following a
path of indices from the root reaches a table, or, on the last level, the value
the tree maps the path to. `Tree` says that no table is reached by two paths.
The two updates of such a structure are linking a fresh empty table under an
empty slot and installing a value in an empty slot of the last level; both
change the answer for exactly one path.
-/
namespace PaskakasaOS.Lib.TableTree

open Runs

variable {T I : Type*}

def follow (σ : T → I → Option T) (root : T) (path : List I) : Option T :=
  run σ root path

/-- Tables at depth at most `d` have one path each. -/
def Tree (σ : T → I → Option T) (root : T) (d : Nat) : Prop :=
  ∀ p q t, p.length ≤ d → q.length ≤ d →
    follow σ root p = some t → follow σ root q = some t → p = q

/-- No path of length at most `d` reaches the table `c`. -/
def Fresh (σ : T → I → Option T) (root : T) (d : Nat) (c : T) : Prop :=
  ∀ q, q.length ≤ d → follow σ root q ≠ some c

variable {σ : T → I → Option T} {root t c : T} {i j : I} {p q : List I} {d : Nat}

@[simp] theorem follow_nil : follow σ root [] = some root := rfl

theorem follow_append (p q : List I) :
    follow σ root (p ++ q) = (follow σ root p).bind (fun t => follow σ t q) :=
  run_append

theorem follow_snoc (p : List I) (i : I) :
    follow σ root (p ++ [i]) = (follow σ root p).bind (fun t => σ t i) :=
  run_snoc

theorem follow_step (hp : follow σ root p = some t) : follow σ root (p ++ [i]) = σ t i :=
  run_snoc_of hp

/-- Below an empty slot no path goes on. -/
theorem follow_below_empty (hp : follow σ root p = some t) (he : σ t i = none) (r : List I) :
    follow σ root (p ++ [i] ++ r) = none := by
  rw [follow_append, follow_step hp, he, Option.bind_none]

/-- Paths that do not go through the table `z` do not depend on its slots. -/
theorem follow_off {σ' : T → I → Option T} {z : T} (h : ∀ t, t ≠ z → σ' t = σ t)
    (hq : ∀ p, p <+: q → p ≠ q → follow σ root p ≠ some z) :
    follow σ' root q = follow σ root q := by
  induction q using List.reverseRecOn with
  | nil => rfl
  | append_singleton q i ih =>
    have hshort : ∀ p, p <+: q → p ≠ q ++ [i] := by
      intro p hp heq
      have hlength := hp.length_le
      rw [heq, List.length_append, List.length_singleton] at hlength
      omega
    rw [follow_snoc, follow_snoc,
      ih fun p hp _ => hq p (hp.trans (List.prefix_append q [i])) (hshort p hp)]
    cases ht : follow σ root q with
    | none => rfl
    | some t =>
      have hne : t ≠ z := by
        rintro rfl
        exact hq q (List.prefix_append q [i]) (hshort q List.prefix_rfl) ht
      rw [Option.bind_some, Option.bind_some, h t hne]

/-- A walk that starts at a table whose slots hold `z` itself or `v` finds `v` in one of them. -/
theorem slot_of_follow {z v : T} (hslots : ∀ i t, σ z i = some t → t = z ∨ t = v) (hne : v ≠ z)
    (h : follow σ z q = some v) : ∃ i, σ z i = some v := by
  induction q with
  | nil => exact absurd (Option.some.inj h).symm hne
  | cons i q ih =>
    rw [follow, run_cons] at h
    obtain ⟨t, ht, hrest⟩ := Option.bind_eq_some_iff.mp h
    rcases hslots i t ht with rfl | rfl
    · exact ih hrest
    · exact ⟨i, ht⟩

section Clear
variable [DecidableEq T]

/-- Empty every slot of one table. -/
def clear (σ : T → I → Option T) (c : T) : T → I → Option T :=
  fun t' i' => if t' = c then none else σ t' i'

theorem follow_clear (hc : Fresh σ root d c) (hq : q.length ≤ d + 1) :
    follow (clear σ c) root q = follow σ root q := by
  induction q using List.reverseRecOn with
  | nil => rfl
  | append_singleton q i ih =>
    have hlen : q.length ≤ d := by simpa using hq
    rw [follow_snoc, follow_snoc, ih (by omega)]
    cases ht : follow σ root q with
    | none => rfl
    | some t =>
      have hne : t ≠ c := fun h => hc q hlen (h ▸ ht)
      simp [clear, hne]

theorem follow_clear_root (σ : T → I → Option T) (root : T) (i : I) (p : List I) :
    follow (clear σ root) root (i :: p) = none := by
  simp [follow, run_cons, clear]

/-- A cleared root with nothing below it is a tree. -/
theorem tree_clear_root (σ : T → I → Option T) (root : T) (d : Nat) :
    Tree (clear σ root) root d := by
  have hpath : ∀ p : List I, ∀ s, follow (clear σ root) root p = some s → p = [] := by
    intro p s h
    cases p with
    | nil => rfl
    | cons i p => simp [follow_clear_root] at h
  intro p q t _ _ hp hq
  rw [hpath p t hp, hpath q t hq]

end Clear

section Updates
variable [DecidableEq T] [DecidableEq I]

/-- Replace one slot. -/
def setSlot (σ : T → I → Option T) (t : T) (i : I) (c : Option T) : T → I → Option T :=
  fun t' i' => if t' = t ∧ i' = i then c else σ t' i'

/-- Hang the emptied table `c` under slot `i` of `t`. -/
def link (σ : T → I → Option T) (t : T) (i : I) (c : T) : T → I → Option T :=
  setSlot (clear σ c) t i (some c)

/-- Filling one empty slot leaves every path that does not use it alone. -/
theorem follow_setSlot_other {v : Option T} (ht : Tree σ root d) (hp : follow σ root p = some t)
    (hd : p.length ≤ d) (hq : q.length ≤ d + 1) (hne : ¬ p ++ [i] <+: q) :
    follow (setSlot σ t i v) root q = follow σ root q := by
  induction q using List.reverseRecOn with
  | nil => rfl
  | append_singleton q j ih =>
    have hlen : q.length ≤ d := by simpa using hq
    have hne' : ¬ p ++ [i] <+: q := fun h => hne (h.trans (List.prefix_append q [j]))
    rw [follow_snoc, follow_snoc, ih (by omega) hne']
    cases hs : follow σ root q with
    | none => rfl
    | some s =>
      have hslot : ¬ (s = t ∧ j = i) := by
        rintro ⟨rfl, rfl⟩
        exact hne (ht q p s hlen hd hs hp ▸ List.prefix_rfl)
      simp [setSlot, hslot]

theorem follow_setSlot_self {v : Option T} (ht : Tree σ root d) (hp : follow σ root p = some t)
    (hd : p.length ≤ d) : follow (setSlot σ t i v) root (p ++ [i]) = v := by
  have hshort : ¬ p ++ [i] <+: p := by
    intro h
    have hl := h.length_le
    rw [List.length_append, List.length_singleton] at hl
    omega
  have hsame := follow_setSlot_other (v := v) ht hp hd (q := p) (by omega) hshort
  rw [follow_step (hsame.trans hp), setSlot, if_pos ⟨rfl, rfl⟩]

/-- Filling an empty slot of the last level maps exactly one more path. -/
theorem follow_install {v : T} (ht : Tree σ root d) (hp : follow σ root p = some t)
    (hd : p.length = d) (hq : q.length ≤ d + 1) :
    follow (setSlot σ t i (some v)) root q = if q = p ++ [i] then some v else follow σ root q := by
  split
  · next heq => rw [heq, follow_setSlot_self ht hp hd.le]
  · next hne =>
    apply follow_setSlot_other ht hp hd.le hq
    intro hpre
    exact hne (hpre.eq_of_length_le (by simpa [hd] using hq)).symm

/-- Linking a fresh table adds exactly one path. -/
theorem follow_link (ht : Tree σ root d) (hp : follow σ root p = some t) (hd : p.length < d)
    (he : σ t i = none) (hc : Fresh σ root d c) (hq : q.length ≤ d + 1) :
    follow (link σ t i c) root q = if q = p ++ [i] then some c else follow σ root q := by
  have hclear : ∀ r : List I, r.length ≤ d + 1 → follow (clear σ c) root r = follow σ root r :=
    fun r hr => follow_clear hc hr
  have htree : Tree (clear σ c) root d := by
    intro p' q' t' hp' hq' hfp hfq
    rw [hclear p' (by omega)] at hfp
    rw [hclear q' (by omega)] at hfq
    exact ht p' q' t' hp' hq' hfp hfq
  have hpc : follow (clear σ c) root p = some t := (hclear p (by omega)).trans hp
  have htc : t ≠ c := fun h => hc p hd.le (h ▸ hp)
  split
  · next heq => rw [heq, link, follow_setSlot_self htree hpc hd.le]
  · next hne =>
    by_cases hpre : p ++ [i] <+: q
    · obtain ⟨r, rfl⟩ := hpre
      cases r with
      | nil => simp at hne
      | cons j r =>
        have hnew : follow (link σ t i c) root (p ++ [i]) = some c := by
          rw [link, follow_setSlot_self htree hpc hd.le]
        have hempty : link σ t i c c j = none := by
          have hct : ¬ (c = t ∧ j = i) := fun h => htc h.1.symm
          rw [link, setSlot, if_neg hct, clear, if_pos rfl]
        rw [follow_below_empty hp he (j :: r), List.append_cons (p ++ [i]) j r,
          follow_below_empty hnew hempty r]
    · rw [link, follow_setSlot_other htree hpc hd.le hq hpre, hclear q hq]

theorem tree_link (ht : Tree σ root d) (hp : follow σ root p = some t) (hd : p.length < d)
    (he : σ t i = none) (hc : Fresh σ root d c) : Tree (link σ t i c) root d := by
  intro p' q' t' hp' hq' hfp hfq
  rw [follow_link ht hp hd he hc (by omega)] at hfp hfq
  split at hfp <;> split at hfq
  · next h1 h2 => exact h1.trans h2.symm
  · exact absurd hfq (Option.some.inj hfp ▸ hc q' hq')
  · exact absurd hfp (Option.some.inj hfq ▸ hc p' hp')
  · exact ht p' q' t' hp' hq' hfp hfq

theorem tree_install {v : T} (ht : Tree σ root d) (hp : follow σ root p = some t)
    (hd : p.length = d) : Tree (setSlot σ t i (some v)) root d := by
  have hsame : ∀ q : List I, q.length ≤ d →
      follow (setSlot σ t i (some v)) root q = follow σ root q := by
    intro q hq
    have hne : q ≠ p ++ [i] := by
      rintro rfl
      rw [List.length_append, hd, List.length_singleton] at hq
      omega
    rw [follow_install ht hp hd (by omega), if_neg hne]
  intro p' q' t' hp' hq' hfp hfq
  rw [hsame p' hp'] at hfp
  rw [hsame q' hq'] at hfq
  exact ht p' q' t' hp' hq' hfp hfq

end Updates

end PaskakasaOS.Lib.TableTree
