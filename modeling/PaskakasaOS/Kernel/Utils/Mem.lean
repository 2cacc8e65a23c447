import PaskakasaOS.Lib.ByteCopy

/-!
# `kernel/utils/mem.c`

The byte loops of the kernel over raw memory.
-/
namespace PaskakasaOS.Kernel.Utils.Mem

open Lib.ByteMemory Lib.ByteCopy

/-- `memset`: the loop has stored the bytes below `n` when it reaches `n`. -/
def memset (m : Memory) (str : Nat) (c : UInt8) : Nat → Memory
  | 0 => m
  | n + 1 => Function.update (memset m str c n) (str + n) c

theorem memset_eq_fill (m : Memory) (str : Nat) (c : UInt8) (n : Nat) :
    memset m str c n = fill m str n c := by
  funext b
  induction n with
  | zero =>
    rw [memset, fill_outside c (by omega)]
  | succ n ih =>
    by_cases hb : b = str + n
    · subst hb
      rw [memset, Function.update_self, fill_inside c (by omega) (by omega)]
    · rw [memset, Function.update_of_ne hb, ih]
      by_cases hin : str ≤ b ∧ b < str + n
      · rw [fill_inside c hin.1 hin.2, fill_inside c hin.1 (by omega)]
      · rw [fill_outside c (by omega), fill_outside c (by omega)]

/-- `memmove` from one object to another, which do not overlap. -/
def memmoveInto (dst : Memory) (d : Nat) (src : Memory) (s : Nat) : Nat → Memory
  | 0 => dst
  | n + 1 => Function.update (memmoveInto dst d src s n) (d + n) (src (s + n))

theorem memmoveInto_inside {dst src : Memory} {d s n i : Nat} (hi : i < n) :
    memmoveInto dst d src s n (d + i) = src (s + i) := by
  induction n with
  | zero => exact absurd hi (Nat.not_lt_zero i)
  | succ n ih =>
    rw [memmoveInto]
    by_cases heq : i = n
    · rw [heq, Function.update_self]
    · rw [Function.update_of_ne (by omega)]
      exact ih (by omega)

/-- A copy to the start of an object. -/
theorem memmoveInto_start {dst src : Memory} {s n i : Nat} (hi : i < n) :
    memmoveInto dst 0 src s n i = src (s + i) := by
  have hcopy : memmoveInto dst 0 src s n (0 + i) = src (s + i) := memmoveInto_inside hi
  rwa [Nat.zero_add] at hcopy

/-! ## `memmove` on raw pointers -/

/-- `&p[i]` -/
def byteAt (p : UInt64) (i : Nat) : Nat := (p + UInt64.ofNat i).toNat

/-- `memmove`, with the pointer it returns. -/
def memmove (m : Memory) (dstptr srcptr size : UInt64) : UInt64 × Memory :=
  let dst := byteAt dstptr
  let src := byteAt srcptr
  if dstptr < srcptr then (dstptr, copyUp m dst src size.toNat)
  else (dstptr, copyDown dst src size.toNat m)

/-- The bytes of an object that does not wrap around the address space. -/
theorem byteAt_eq {p : UInt64} {n i : Nat} (h : p.toNat + n ≤ 2 ^ 64) (hi : i < n) :
    byteAt p i = p.toNat + i := by
  rw [byteAt, UInt64.toNat_add, UInt64.toNat_ofNat', Nat.mod_eq_of_lt (show i < 2 ^ 64 by omega)]
  exact Nat.mod_eq_of_lt (by omega)

theorem copied_memmove (m : Memory) {dst src size : UInt64} (hdst : dst.toNat + size.toNat ≤ 2 ^ 64)
    (hsrc : src.toNat + size.toNat ≤ 2 ^ 64) :
    Copied m (memmove m dst src size).2 (byteAt dst) (byteAt src) size.toNat := by
  have hd : ∀ i < size.toNat, byteAt dst i = dst.toNat + i := fun i hi => byteAt_eq hdst hi
  have hs : ∀ i < size.toNat, byteAt src i = src.toNat + i := fun i hi => byteAt_eq hsrc hi
  rw [memmove]
  by_cases hlt : dst < src
  · rw [if_pos hlt]
    exact copied_copyUp_of_le hd hs (UInt64.le_iff_toNat_le.mp (UInt64.le_of_lt hlt))
  · rw [if_neg hlt]
    exact copied_copyDown_of_le hd hs (UInt64.le_iff_toNat_le.mp (UInt64.not_lt.mp hlt))

theorem memmoveInto_outside {dst src : Memory} {d s n a : Nat} (ha : a < d ∨ d + n ≤ a) :
    memmoveInto dst d src s n a = dst a := by
  induction n with
  | zero => rfl
  | succ n ih =>
    rw [memmoveInto, Function.update_of_ne (by omega)]
    exact ih (by omega)

/-- On ranges that do not wrap, `memmove` copies as if source and destination were
two objects. -/
theorem memmove_eq_memmoveInto (m : Memory) {dst src size : UInt64}
    (hdst : dst.toNat + size.toNat ≤ 2 ^ 64) (hsrc : src.toNat + size.toNat ≤ 2 ^ 64) :
    (memmove m dst src size).2 = memmoveInto m dst.toNat m src.toNat size.toNat := by
  have hd : ∀ i < size.toNat, byteAt dst i = dst.toNat + i := fun i hi => byteAt_eq hdst hi
  have hs : ∀ i < size.toNat, byteAt src i = src.toNat + i := fun i hi => byteAt_eq hsrc hi
  refine (copied_memmove m hdst hsrc).eq ⟨?_, ?_⟩
  · intro i hi
    rw [hd i hi, hs i hi]
    exact memmoveInto_inside hi
  · intro a ha
    refine memmoveInto_outside ?_
    by_contra hin
    refine ha (a - dst.toNat) (by omega) ?_
    rw [hd _ (by omega)]
    omega

/-! ## Strings -/

/-- `strlen` of a string for which `rest` bytes of the address space are left. -/
def strlen (m : Memory) : Nat → Nat → Option Nat
  | 0, _ => none
  | rest + 1, str => if m str = 0 then some 0 else (strlen m rest (str + 1)).map (· + 1)

/-- The count is the place of the first zero. -/
theorem strlen_eq_some_iff {m : Memory} {rest str n : Nat} :
    strlen m rest str = some n ↔ n < rest ∧ m (str + n) = 0 ∧ ∀ k < n, m (str + k) ≠ 0 := by
  induction rest generalizing str n with
  | zero => exact iff_of_false (by simp [strlen]) fun h => Nat.not_lt_zero n h.1
  | succ rest ih =>
    have hplace : ∀ k, str + (k + 1) = str + 1 + k := fun k => by omega
    rw [strlen]
    by_cases hc : m str = 0
    · rw [if_pos hc]
      constructor
      · intro h
        cases h
        exact ⟨Nat.succ_pos rest, hc, fun k hk => absurd hk (Nat.not_lt_zero k)⟩
      · intro h
        cases n with
        | zero => rfl
        | succ n => exact absurd hc (h.2.2 0 (Nat.succ_pos n))
    · rw [if_neg hc, Option.map_eq_some_iff]
      constructor
      · intro h
        obtain ⟨n', hn', rfl⟩ := h
        obtain ⟨hlt, hzero, hbefore⟩ := ih.mp hn'
        refine ⟨Nat.succ_lt_succ hlt, by rwa [hplace], fun k hk => ?_⟩
        cases k with
        | zero => exact hc
        | succ k =>
          rw [hplace]
          exact hbefore k (Nat.lt_of_succ_lt_succ hk)
      · intro h
        obtain ⟨hlt, hzero, hbefore⟩ := h
        cases n with
        | zero => exact absurd hzero hc
        | succ n =>
          refine ⟨n, ih.mpr ⟨Nat.lt_of_succ_lt_succ hlt, ?_, fun k hk => ?_⟩, rfl⟩
          · rwa [← hplace]
          · rw [← hplace]
            exact hbefore (k + 1) (Nat.succ_lt_succ hk)

/-- `strcmp` over `len` characters: `0` when they agree. -/
def strcmp (str1 str2 : Memory) : Nat → UInt8
  | 0 => 0
  | len + 1 => if str1 len = str2 len then strcmp str1 str2 len else 1

theorem strcmp_eq_zero_iff (str1 str2 : Memory) (len : Nat) :
    strcmp str1 str2 len = 0 ↔ ∀ n < len, str1 n = str2 n := by
  induction len with
  | zero => exact ⟨fun _ n hn => absurd hn (Nat.not_lt_zero n), fun _ => rfl⟩
  | succ len ih =>
    rw [strcmp]
    by_cases heq : str1 len = str2 len
    · rw [if_pos heq, ih]
      constructor
      · intro h n hn
        rcases Nat.lt_succ_iff_lt_or_eq.mp hn with hlt | rfl
        · exact h n hlt
        · exact heq
      · exact fun h n hn => h n (by omega)
    · rw [if_neg heq]
      exact ⟨fun h => absurd h (by decide), fun h => absurd (h len (Nat.lt_succ_self len)) heq⟩

end PaskakasaOS.Kernel.Utils.Mem
