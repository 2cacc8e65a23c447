import Mathlib.Data.Nat.Digits.Lemmas

/-!
# Numerals

The digits of a number as a loop produces them that stops when the quotient is zero:
least significant first, and one digit for zero. Most significant first they denote
the number.
-/
namespace PaskakasaOS.Lib.Numerals

def numeral (b n : Nat) : List Nat := if n = 0 then [0] else Nat.digits b n

/-- The number that digits denote, most significant first. -/
def value (b : Nat) (ds : List Nat) : Nat := ds.foldl (fun v d => v * b + d) 0

variable {b n k d : Nat}

theorem numeral_of_ne_zero (hn : n ≠ 0) : numeral b n = Nat.digits b n := if_neg hn

/-- One round of the loop. -/
theorem numeral_eq (hb : 1 < b) (n : Nat) :
    numeral b n = n % b :: if n / b = 0 then [] else numeral b (n / b) := by
  by_cases hn : n = 0
  · rw [hn, Nat.zero_mod, Nat.zero_div, if_pos rfl]
    rfl
  · rw [numeral_of_ne_zero hn, Nat.digits_def' hb (Nat.pos_of_ne_zero hn)]
    by_cases hq : n / b = 0
    · rw [if_pos hq, hq, Nat.digits_zero]
    · rw [if_neg hq, numeral_of_ne_zero hq]

theorem lt_of_mem_numeral (hb : 1 < b) (hd : d ∈ numeral b n) : d < b := by
  by_cases hn : n = 0
  · rw [hn] at hd
    rw [List.mem_singleton.mp hd]
    exact Nat.zero_lt_of_lt hb
  · rw [numeral_of_ne_zero hn] at hd
    exact Nat.digits_lt_base hb hd

theorem length_numeral_pos (b n : Nat) : 0 < (numeral b n).length := by
  by_cases hn : n = 0
  · rw [hn]
    exact Nat.zero_lt_one
  · rw [numeral_of_ne_zero hn]
    exact List.length_pos_of_ne_nil (Nat.digits_ne_nil_iff_ne_zero.mpr hn)

/-- How many digits there are. -/
theorem length_numeral_le_iff (hb : 1 < b) (hk : 0 < k) : (numeral b n).length ≤ k ↔ n < b ^ k := by
  by_cases hn : n = 0
  · rw [hn]
    exact iff_of_true hk (Nat.pow_pos (Nat.zero_lt_of_lt hb))
  · rw [numeral_of_ne_zero hn]
    exact Nat.digits_length_le_iff hb n

/-- The first digit is not zero, except for zero itself. -/
theorem head_reverse_numeral (hn : n ≠ 0) : (numeral b n).reverse.head? ≠ some 0 := by
  have hne : Nat.digits b n ≠ [] := Nat.digits_ne_nil_iff_ne_zero.mpr hn
  rw [numeral_of_ne_zero hn, List.head?_reverse, List.getLast?_eq_some_getLast hne]
  exact fun h => Nat.getLast_digit_ne_zero b hn (Option.some.inj h)

theorem value_reverse (b : Nat) (ds : List Nat) : value b ds.reverse = Nat.ofDigits b ds := by
  induction ds with
  | nil => rfl
  | cons d ds ih =>
    rw [value, List.reverse_cons, List.foldl_append, List.foldl_cons, List.foldl_nil, ← value, ih,
      Nat.ofDigits_cons]
    ring

theorem value_reverse_numeral (b n : Nat) : value b (numeral b n).reverse = n := by
  rw [value_reverse]
  by_cases hn : n = 0
  · rw [hn]
    exact Nat.ofDigits_singleton
  · rw [numeral_of_ne_zero hn, Nat.ofDigits_digits]

end PaskakasaOS.Lib.Numerals
