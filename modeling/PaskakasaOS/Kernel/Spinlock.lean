import Mathlib.Logic.Function.Basic
import PaskakasaOS.Lib.Runs

/-!
# `kernel/spinlock.c`

Any number of threads call `acquire` and `release` on one lock. The loop of `acquire` is one
`__atomic_test_and_set` after the other, and the threads take turns between any two of them.
-/
namespace PaskakasaOS.Kernel.Spinlock

open Lib.Runs

/-- `spinlock_t` -/
structure Lock where
  locked : Bool

/-- `__atomic_test_and_set`: what it returns and what it leaves. -/
def testAndSet (lock : Lock) : Bool × Lock := (lock.locked, { lock with locked := true })

/-- `__atomic_clear` -/
def atomicClear (lock : Lock) : Lock := { lock with locked := false }

/-- Where a thread is: not at the lock, in the loop of `acquire`, or behind it. -/
inductive Place where
  | outside
  | spinning
  | inside
  deriving DecidableEq

structure State (P : Type) where
  lock : Lock
  place : P → Place

/-- A call of `acquire`, one round of its loop, and `release`, which only a thread calls
that has the lock. -/
inductive Event (P : Type) where
  | acquire (p : P)
  | test (p : P)
  | release (p : P)

section Threads

variable {P : Type} [DecidableEq P]

def start : State P := ⟨⟨false⟩, fun _ => .outside⟩

def step (s : State P) : Event P → Option (State P)
  | .acquire p =>
    if s.place p = .outside then some { s with place := Function.update s.place p .spinning } else none
  | .test p =>
    if s.place p = .spinning then
      let (old, lock) := testAndSet s.lock
      some ⟨lock, if old then s.place else Function.update s.place p .inside⟩
    else none
  | .release p =>
    if s.place p = .inside then
      some ⟨atomicClear s.lock, Function.update s.place p .outside⟩
    else none

/-- The lock is taken exactly when a thread is behind it, and then one alone. -/
structure Held (s : State P) : Prop where
  exclusive : ∀ p q, s.place p = .inside → s.place q = .inside → p = q
  locked : s.lock.locked = true ↔ ∃ p, s.place p = .inside

variable {s s' : State P} {p q : P}

omit [DecidableEq P] in
theorem held_start : Held (start : State P) where
  exclusive p _ h := nomatch h
  locked := by
    constructor
    · intro h
      cases h
    · rintro ⟨p, h⟩
      cases h

theorem Held.acquire (h : Held s) (hp : s.place p = .outside) :
    Held { s with place := Function.update s.place p .spinning } := by
  have hsame : ∀ q, Function.update s.place p .spinning q = .inside ↔ s.place q = .inside := by
    intro q
    by_cases hq : q = p
    · subst hq
      rw [Function.update_self, hp]
      decide
    · rw [Function.update_of_ne hq]
  refine ⟨fun q r hq hr => h.exclusive q r ((hsame q).mp hq) ((hsame r).mp hr), ?_⟩
  simp only [hsame]
  exact h.locked

/-- A test that finds the lock taken changes nothing. -/
theorem Held.waits (h : Held s) (hp : s.place p = .spinning) (hq : s.place q = .inside) :
    step s (.test p) = some s := by
  have hlocked : s.lock.locked = true := h.locked.mpr ⟨q, hq⟩
  have hlock : { s.lock with locked := true } = s.lock := by
    rw [← hlocked]
  simp only [step, if_pos hp, testAndSet, hlocked, if_true, hlock]

/-- A test that finds it free enters. -/
theorem Held.enters (h : Held s) (hp : s.place p = .spinning) (hfree : ∀ q, s.place q ≠ .inside) :
    step s (.test p) = some ⟨⟨true⟩, Function.update s.place p .inside⟩ := by
  have hclear : s.lock.locked = false := by
    rw [← Bool.not_eq_true, h.locked]
    exact fun hheld => hheld.elim hfree
  simp only [step, if_pos hp, testAndSet, hclear, Bool.false_eq_true, if_false]

theorem held_entered (hfree : ∀ q, s.place q ≠ .inside) :
    Held ⟨⟨true⟩, Function.update s.place p .inside⟩ := by
  have honly : ∀ q, Function.update s.place p .inside q = .inside → q = p := by
    intro q hq
    by_contra hne
    rw [Function.update_of_ne hne] at hq
    exact hfree q hq
  exact ⟨fun q r hq hr => (honly q hq).trans (honly r hr).symm,
    iff_of_true rfl ⟨p, Function.update_self p .inside s.place⟩⟩

theorem Held.release (h : Held s) (hp : s.place p = .inside) :
    Held ⟨atomicClear s.lock, Function.update s.place p .outside⟩ := by
  have hnone : ∀ q, Function.update s.place p .outside q ≠ .inside := by
    intro q hq
    by_cases hqp : q = p
    · subst hqp
      rw [Function.update_self] at hq
      cases hq
    · rw [Function.update_of_ne hqp] at hq
      exact hqp (h.exclusive q p hq hp)
  refine ⟨fun q r hq _ => absurd hq (hnone q), ?_⟩
  exact iff_of_false Bool.false_ne_true fun hheld => hheld.elim hnone

theorem held_step (s : State P) (e : Event P) (s' : State P) (h : Held s) (_ : True)
    (hs : step s e = some s') : Held s' := by
  cases e with
  | acquire p =>
    by_cases hp : s.place p = .outside
    · rw [step, if_pos hp] at hs
      obtain rfl := Option.some.inj hs
      exact h.acquire hp
    · rw [step, if_neg hp] at hs
      cases hs
  | test p =>
    by_cases hp : s.place p = .spinning
    · by_cases hfree : ∀ q, s.place q ≠ .inside
      · rw [h.enters hp hfree] at hs
        obtain rfl := Option.some.inj hs
        exact held_entered hfree
      · obtain ⟨q, hq⟩ := not_forall.mp hfree
        rw [h.waits hp (not_not.mp hq)] at hs
        obtain rfl := Option.some.inj hs
        exact h
    · rw [step, if_neg hp] at hs
      cases hs
  | release p =>
    by_cases hp : s.place p = .inside
    · rw [step, if_pos hp] at hs
      obtain rfl := Option.some.inj hs
      exact h.release hp
    · rw [step, if_neg hp] at hs
      cases hs

/-- What the threads can rely on in every order of their steps. -/
structure Safe (s : State P) : Prop where
  exclusive : ∀ p q, s.place p = .inside → s.place q = .inside → p = q
  waits : ∀ p q, s.place p = .spinning → s.place q = .inside → step s (.test p) = some s
  enters : ∀ p, s.place p = .spinning → (∀ q, s.place q ≠ .inside) →
    ∃ s', step s (.test p) = some s' ∧ s'.place p = .inside ∧ ∀ q ≠ p, s'.place q = s.place q

/-- At most one thread is behind `acquire`; while one is, the loops of the others leave the lock
alone, and as soon as none is, the next round of any of them enters. -/
theorem run_safe {es : List (Event P)} (hrun : run step start es = some s) : Safe s := by
  have h : Held s := run_invariant held_step held_start
    (along_of_forall (C := fun _ _ => True) fun _ _ _ => trivial) hrun
  refine ⟨h.exclusive, fun p q hp hq => h.waits hp hq, fun p hp hfree => ?_⟩
  exact ⟨_, h.enters hp hfree, Function.update_self _ _ _, fun q hq => Function.update_of_ne hq _ _⟩

end Threads

/-- Two threads, one of which waits for the other. -/
theorem run_safe_two :
    ∃ s, run step (start : State Bool) [.acquire true, .acquire false, .test true, .test false] =
      some s ∧ Safe s := by
  have hrun : run step (start : State Bool)
      [.acquire true, .acquire false, .test true, .test false] = some _ := rfl
  exact ⟨_, hrun, run_safe hrun⟩

end PaskakasaOS.Kernel.Spinlock
