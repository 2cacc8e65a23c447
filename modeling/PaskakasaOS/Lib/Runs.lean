import Mathlib.Data.List.Induction

/-!
# Runs of a partial deterministic machine

`step s x = none` means that the machine does not continue from `s` on input
`x`. A run feeds a list of inputs. The two rules below carry an invariant along
a run: `run_invariant` when every step taken meets a side condition, `run_total`
when the invariant also guarantees that each step is taken.
-/
namespace PaskakasaOS.Lib.Runs

variable {S X : Type*}

def run (step : S → X → Option S) (s : S) (xs : List X) : Option S :=
  xs.foldlM step s

/-- Every step the run takes starts in a state, and with an input, that `C` allows. -/
def Along (step : S → X → Option S) (C : S → X → Prop) : S → List X → Prop
  | _, [] => True
  | s, x :: xs => C s x ∧ ∀ s', step s x = some s' → Along step C s' xs

variable {step : S → X → Option S} {s s' : S} {x : X} {xs ys : List X}

@[simp] theorem run_nil : run step s [] = some s := rfl

theorem run_cons : run step s (x :: xs) = (step s x).bind (fun t => run step t xs) := by
  simp [run, Option.bind_eq_bind]

theorem run_append : run step s (xs ++ ys) = (run step s xs).bind (fun t => run step t ys) := by
  simp [run, List.foldlM_append, Option.bind_eq_bind]

theorem run_snoc : run step s (xs ++ [x]) = (run step s xs).bind (fun t => step t x) := by
  rw [run_append]
  cases run step s xs <;> simp [run]

theorem run_snoc_of (h : run step s xs = some s') : run step s (xs ++ [x]) = step s' x := by
  rw [run_snoc, h, Option.bind_some]

/-- The run over one more input of a given list. -/
theorem run_take_succ {k : Nat} (hx : xs[k]? = some x) :
    run step s (xs.take (k + 1)) = (run step s (xs.take k)).bind (fun t => step t x) := by
  rw [List.take_add_one, hx, Option.toList_some, run_snoc]

/-- A run over all inputs passes through a state before each of them. -/
theorem run_take_of_isSome (h : (run step s xs).isSome) (k : Nat) :
    ∃ t, run step s (xs.take k) = some t := by
  obtain ⟨last, hlast⟩ := Option.isSome_iff_exists.mp h
  rw [← List.take_append_drop k xs, run_append] at hlast
  obtain ⟨t, ht, _⟩ := Option.bind_eq_some_iff.mp hlast
  exact ⟨t, ht⟩

/-- A run over all inputs takes the step on each of them. -/
theorem step_of_isSome {k : Nat} (h : (run step s xs).isSome) (hx : xs[k]? = some x)
    (ht : run step s (xs.take k) = some s') : ∃ t, step s' x = some t := by
  obtain ⟨t, hnext⟩ := run_take_of_isSome h (k + 1)
  rw [run_take_succ hx, ht, Option.bind_some] at hnext
  exact ⟨t, hnext⟩

/-- A machine whose steps are runs of a finer machine. -/
theorem run_flatMap {Y : Type*} {fine : S → Y → Option S} {f : X → List Y}
    (h : ∀ s x, step s x = run fine s (f x)) : run step s xs = run fine s (xs.flatMap f) := by
  induction xs generalizing s with
  | nil => rfl
  | cons x xs ih =>
    rw [run_cons, List.flatMap_cons, run_append, h]
    congr 1
    funext t
    exact ih

/-- A condition on the inputs alone holds along every run over them. -/
theorem along_of_forall {C : S → X → Prop} (h : ∀ s, ∀ x ∈ xs, C s x) : Along step C s xs := by
  induction xs generalizing s with
  | nil => trivial
  | cons x xs ih =>
    refine ⟨h s x List.mem_cons_self, fun s' _ => ih ?_⟩
    exact fun t y hy => h t y (List.mem_cons_of_mem x hy)

theorem run_invariant {P : S → Prop} {C : S → X → Prop}
    (hstep : ∀ s x s', P s → C s x → step s x = some s' → P s')
    (hs : P s) (hc : Along step C s xs) (h : run step s xs = some s') : P s' := by
  induction xs generalizing s with
  | nil => exact Option.some.inj h ▸ hs
  | cons x xs ih =>
    rw [run_cons] at h
    obtain ⟨t, ht, hrest⟩ := Option.bind_eq_some_iff.mp h
    exact ih (hstep s x t hs hc.1 ht) (hc.2 t ht) hrest

theorem run_total {P : S → Prop} {C : X → Prop}
    (hstep : ∀ s x, P s → C x → ∃ s', step s x = some s' ∧ P s')
    (hs : P s) (hc : ∀ x ∈ xs, C x) : ∃ s', run step s xs = some s' ∧ P s' := by
  induction xs generalizing s with
  | nil => exact ⟨s, rfl, hs⟩
  | cons x xs ih =>
    obtain ⟨t, ht, hpt⟩ := hstep s x hs (hc x List.mem_cons_self)
    obtain ⟨s', hrun, hs'⟩ := ih hpt (fun y hy => hc y (List.mem_cons_of_mem x hy))
    exact ⟨s', by rw [run_cons, ht, Option.bind_some, hrun], hs'⟩

/-- A partial machine that follows a total one as long as the invariant holds. -/
theorem run_eq_foldl {P : S → Prop} {f : S → X → S}
    (hstep : ∀ s, ∀ x ∈ xs, P s → step s x = some (f s x) ∧ P (f s x)) (hs : P s) :
    run step s xs = some (xs.foldl f s) ∧ P (xs.foldl f s) := by
  induction xs generalizing s with
  | nil => exact ⟨rfl, hs⟩
  | cons x xs ih =>
    obtain ⟨hx, hnext⟩ := hstep s x List.mem_cons_self hs
    have hrest := ih (fun t y hy => hstep t y (List.mem_cons_of_mem x hy)) hnext
    rwa [run_cons, hx, Option.bind_some, List.foldl_cons]

/-- Two machines whose steps stay related, stopping on the same inputs, stay related. -/
theorem run_rel {T : Type*} {step' : T → X → Option T} {R : S → T → Prop} {t : T}
    (hstep : ∀ s t x, R s t → Option.Rel R (step s x) (step' t x)) (h : R s t) :
    Option.Rel R (run step s xs) (run step' t xs) := by
  induction xs generalizing s t with
  | nil => exact .some h
  | cons x xs ih =>
    rw [run_cons, run_cons]
    have hrel := hstep s t x h
    generalize step s x = u, step' t x = v at hrel
    cases hrel with
    | some hnext => exact ih hnext
    | none => exact .none

theorem isSome_eq_of_rel {T : Type*} {R : S → T → Prop} {a : Option S} {b : Option T}
    (h : Option.Rel R a b) : a.isSome = b.isSome := by
  cases h with
  | some _ => rfl
  | none => rfl

/-- A machine that can follow every step of another one follows its runs. -/
theorem run_simulates {T : Type*} {step' : T → X → Option T} {R : S → T → Prop} {t t' : T}
    (hstep : ∀ s t x t', R s t → step' t x = some t' → ∃ s', step s x = some s' ∧ R s' t')
    (h : R s t) (hrun : run step' t xs = some t') : ∃ s', run step s xs = some s' ∧ R s' t' := by
  induction xs generalizing s t with
  | nil => exact ⟨s, rfl, Option.some.inj hrun ▸ h⟩
  | cons x xs ih =>
    rw [run_cons] at hrun
    obtain ⟨u, hu, hrest⟩ := Option.bind_eq_some_iff.mp hrun
    obtain ⟨v, hv, hrel⟩ := hstep s t x u h hu
    obtain ⟨s', hs', hend⟩ := ih hrel hrest
    exact ⟨s', by rw [run_cons, hv, Option.bind_some, hs'], hend⟩

end PaskakasaOS.Lib.Runs
