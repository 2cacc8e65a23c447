import PaskakasaOS.Lib.ByteMemory

/-!
# Copies of bytes within one memory

Byte `i` of the source is at `s i` and goes to `d i`. The two loops copy the bytes
one after the other, upwards or downwards. Each gives what a copy from a snapshot of
the source would, as long as it does not overwrite a byte that it has yet to read.
-/
namespace PaskakasaOS.Lib.ByteCopy

open ByteMemory

variable {m : Memory} {d s : Nat → Nat} {n : Nat}

/-- The memory after `n` rounds from byte `0` upwards. -/
def copyUp (m : Memory) (d s : Nat → Nat) : Nat → Memory
  | 0 => m
  | i + 1 => Function.update (copyUp m d s i) (d i) (copyUp m d s i (s i))

/-- The rounds from byte `n - 1` down to byte `0`. -/
def copyDown (d s : Nat → Nat) : Nat → Memory → Memory
  | 0, m => m
  | i + 1, m => copyDown d s i (Function.update m (d i) (m (s i)))

/-- `m'` is `m` with the first `n` bytes of the source in their new places. -/
structure Copied (m m' : Memory) (d s : Nat → Nat) (n : Nat) : Prop where
  inside : ∀ i < n, m' (d i) = m (s i)
  outside : ∀ a, (∀ i < n, a ≠ d i) → m' a = m a

/-- Upwards, no byte is overwritten before it is read. -/
theorem copied_copyUp (hinj : ∀ i < n, ∀ j < n, d i = d j → i = j)
    (hunread : ∀ j < n, ∀ i < j, s j ≠ d i) : Copied m (copyUp m d s n) d s n := by
  induction n with
  | zero => exact ⟨fun i hi => absurd hi (Nat.not_lt_zero i), fun _ _ => rfl⟩
  | succ n ih =>
    have hcopied := ih (fun i hi j hj => hinj i (by omega) j (by omega))
      (fun j hj => hunread j (by omega))
    constructor
    · intro i hi
      rw [copyUp]
      by_cases hlast : i = n
      · rw [hlast, Function.update_self]
        exact hcopied.outside _ (hunread n (Nat.lt_succ_self n))
      · have hother : d i ≠ d n := fun heq => hlast (hinj i hi n (Nat.lt_succ_self n) heq)
        rw [Function.update_of_ne hother]
        exact hcopied.inside i (by omega)
    · intro a ha
      rw [copyUp, Function.update_of_ne (ha n (Nat.lt_succ_self n))]
      exact hcopied.outside a fun i hi => ha i (by omega)

/-- Downwards, no byte is overwritten before it is read. -/
theorem copied_copyDown (hinj : ∀ i < n, ∀ j < n, d i = d j → i = j)
    (hunread : ∀ j < n, ∀ i < j, s i ≠ d j) : Copied m (copyDown d s n m) d s n := by
  induction n generalizing m with
  | zero => exact ⟨fun i hi => absurd hi (Nat.not_lt_zero i), fun _ _ => rfl⟩
  | succ n ih =>
    have hcopied := ih (m := Function.update m (d n) (m (s n)))
      (fun i hi j hj => hinj i (by omega) j (by omega)) (fun j hj => hunread j (by omega))
    constructor
    · intro i hi
      rw [copyDown]
      by_cases hlast : i = n
      · have hkept : ∀ j < n, d n ≠ d j := by
          intro j hj heq
          have := hinj n (Nat.lt_succ_self n) j (by omega) heq
          omega
        rw [hlast, hcopied.outside _ hkept, Function.update_self]
      · rw [hcopied.inside i (by omega),
          Function.update_of_ne (hunread n (Nat.lt_succ_self n) i (by omega))]
    · intro a ha
      rw [copyDown, hcopied.outside a fun i hi => ha i (by omega),
        Function.update_of_ne (ha n (Nat.lt_succ_self n))]

section Ranges

variable {a b : Nat}

/-- Between ranges of addresses, upwards to the lower range. -/
theorem copied_copyUp_of_le (hd : ∀ i < n, d i = a + i) (hs : ∀ i < n, s i = b + i) (h : a ≤ b) :
    Copied m (copyUp m d s n) d s n := by
  apply copied_copyUp
  · intro i hi j hj heq
    rw [hd i hi, hd j hj] at heq
    omega
  · intro j hj i hij
    rw [hs j hj, hd i (by omega)]
    omega

/-- Between ranges of addresses, downwards to the upper range. -/
theorem copied_copyDown_of_le (hd : ∀ i < n, d i = a + i) (hs : ∀ i < n, s i = b + i) (h : b ≤ a) :
    Copied m (copyDown d s n m) d s n := by
  apply copied_copyDown
  · intro i hi j hj heq
    rw [hd i hi, hd j hj] at heq
    omega
  · intro j hj i hij
    rw [hs i (by omega), hd j hj]
    omega

/-- A copy between ranges, by address. -/
theorem Copied.range {m' : Memory} (h : Copied m m' d s n) (hd : ∀ i < n, d i = a + i)
    (hs : ∀ i < n, s i = b + i) :
    (∀ i < n, m' (a + i) = m (b + i)) ∧ ∀ c, c < a ∨ a + n ≤ c → m' c = m c := by
  constructor
  · intro i hi
    rw [← hd i hi, ← hs i hi]
    exact h.inside i hi
  · intro c hc
    apply h.outside
    intro i hi
    rw [hd i hi]
    omega

end Ranges

/-- A copy is determined by the memory before. -/
theorem Copied.eq {m₁ m₂ : Memory} (h₁ : Copied m m₁ d s n) (h₂ : Copied m m₂ d s n) : m₁ = m₂ := by
  funext a
  by_cases hin : ∃ i < n, a = d i
  · obtain ⟨i, hi, rfl⟩ := hin
    rw [h₁.inside i hi, h₂.inside i hi]
  · have hout : ∀ i < n, a ≠ d i := fun i hi heq => hin ⟨i, hi, heq⟩
    rw [h₁.outside a hout, h₂.outside a hout]

end PaskakasaOS.Lib.ByteCopy
