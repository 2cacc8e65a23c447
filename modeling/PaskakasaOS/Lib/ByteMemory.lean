import Mathlib.Logic.Function.Basic
import Mathlib.Tactic.Ring

/-!
# Byte-addressed memory with little-endian words

A memory is a total map from addresses to bytes. A `k`-byte word is read and
written least significant byte first, one byte at a time, so that overlapping
words of different widths keep their exact meaning.
-/
namespace PaskakasaOS.Lib.ByteMemory

abbrev Memory := Nat → UInt8

/-- The little-endian value of the `k` bytes from `a` on. -/
def readLE : Nat → Memory → Nat → Nat
  | 0, _, _ => 0
  | k + 1, m, a => (m a).toNat + 256 * readLE k m (a + 1)

/-- Store the low `k` bytes of `w` from `a` on; higher bits of `w` are dropped. -/
def writeLE : Nat → Memory → Nat → Nat → Memory
  | 0, m, _, _ => m
  | k + 1, m, a, w => Function.update (writeLE k m (a + 1) (w / 256)) a (UInt8.ofNat w)

/-- The memory with the `n` bytes from `a` on set to `v`. -/
def fill (m : Memory) (a n : Nat) (v : UInt8) : Memory :=
  fun b => if a ≤ b ∧ b < a + n then v else m b

/-- Store bytes one after the other from `a` on. -/
def writeBytes : Memory → Nat → List UInt8 → Memory
  | m, _, [] => m
  | m, a, c :: bytes => writeBytes (Function.update m a c) (a + 1) bytes

variable {m m' : Memory} {a b k l n w : Nat}

theorem fill_inside (v : UInt8) (hl : a ≤ b) (hu : b < a + n) : fill m a n v b = v :=
  if_pos ⟨hl, hu⟩

theorem fill_outside (v : UInt8) (h : b < a ∨ a + n ≤ b) : fill m a n v b = m b := by
  apply if_neg
  omega

theorem writeLE_outside (h : b < a ∨ a + k ≤ b) : writeLE k m a w b = m b := by
  induction k generalizing a w with
  | zero => rfl
  | succ k ih =>
    rw [writeLE, Function.update_of_ne (by omega)]
    exact ih (by omega)

/-- Steps that leave a byte alone, one after the other. -/
theorem foldl_outside {ι : Type} {f : Memory → ι → Memory} {steps : List ι}
    (h : ∀ i ∈ steps, ∀ m, f m i b = m b) : steps.foldl f m b = m b := by
  induction steps generalizing m with
  | nil => rfl
  | cons i steps ih =>
    rw [List.foldl_cons, ih fun j hj => h j (List.mem_cons_of_mem i hj)]
    exact h i List.mem_cons_self m

theorem readLE_congr (h : ∀ i, i < k → m (a + i) = m' (a + i)) : readLE k m a = readLE k m' a := by
  induction k generalizing a with
  | zero => rfl
  | succ k ih =>
    have hhead : m a = m' a := h 0 (by omega)
    have htail : readLE k m (a + 1) = readLE k m' (a + 1) := by
      apply ih
      intro i hi
      have hnext := h (i + 1) (by omega)
      rwa [show a + (i + 1) = a + 1 + i by omega] at hnext
    rw [readLE, readLE, hhead, htail]

/-- A word of the memory behind `a`. -/
theorem readLE_shift (k : Nat) (m : Memory) (a b : Nat) :
    readLE k (fun i => m (a + i)) b = readLE k m (a + b) := by
  induction k generalizing b with
  | zero => rfl
  | succ k ih => rw [readLE, readLE, ih, Nat.add_assoc]

/-- A word as a low and a high part. -/
theorem readLE_add (k l : Nat) (m : Memory) (a : Nat) :
    readLE (k + l) m a = readLE k m a + 256 ^ k * readLE l m (a + k) := by
  induction k generalizing a with
  | zero => rw [Nat.zero_add, Nat.pow_zero, Nat.one_mul, readLE, Nat.zero_add, Nat.add_zero]
  | succ k ih =>
    rw [Nat.succ_add, readLE, readLE, ih, Nat.add_assoc a 1 k, Nat.add_comm 1 k]
    ring

theorem readLE_one (m : Memory) (a : Nat) : readLE 1 m a = (m a).toNat := rfl

theorem readLE_lt (k : Nat) (m : Memory) (a : Nat) : readLE k m a < 256 ^ k := by
  induction k generalizing a with
  | zero => simp [readLE]
  | succ k ih =>
    have hbyte : (m a).toNat < 256 := (m a).toNat_lt
    have hrest := ih (a + 1)
    rw [readLE, Nat.pow_succ]
    omega

/-- The low part of a stored word. -/
theorem readLE_writeLE_low (h : l ≤ k) : readLE l (writeLE k m a w) a = w % 256 ^ l := by
  induction l generalizing k m a w with
  | zero => simp [readLE, Nat.mod_one]
  | succ l ih =>
    obtain ⟨k, rfl⟩ : ∃ n, k = n + 1 := ⟨k - 1, by omega⟩
    have hhead : (writeLE (k + 1) m a w a).toNat = w % 256 := by
      rw [writeLE, Function.update_self, UInt8.toNat_ofNat']
    have htail : readLE l (writeLE (k + 1) m a w) (a + 1) = w / 256 % 256 ^ l := by
      rw [← ih (k := k) (m := m) (a := a + 1) (by omega)]
      apply readLE_congr
      intro i _
      rw [writeLE, Function.update_of_ne (by omega)]
    rw [readLE, hhead, htail, Nat.pow_succ', Nat.mod_mul]

/-- A word read back where it was stored is the stored word modulo its width. -/
theorem readLE_writeLE (k : Nat) (m : Memory) (a w : Nat) :
    readLE k (writeLE k m a w) a = w % 256 ^ k :=
  readLE_writeLE_low (Nat.le_refl k)

theorem readLE_writeLE_of_lt (h : w < 256 ^ k) : readLE k (writeLE k m a w) a = w := by
  rw [readLE_writeLE, Nat.mod_eq_of_lt h]

/-- Any part of a stored word. -/
theorem readLE_writeLE_inside {j : Nat} (h : j + l ≤ k) :
    readLE l (writeLE k m a w) (a + j) = w / 256 ^ j % 256 ^ l := by
  induction j generalizing k m a w with
  | zero =>
    rw [Nat.pow_zero, Nat.div_one]
    exact readLE_writeLE_low (by omega)
  | succ j ih =>
    obtain ⟨k, rfl⟩ : ∃ n, k = n + 1 := ⟨k - 1, by omega⟩
    have hrest := ih (k := k) (m := m) (a := a + 1) (w := w / 256) (by omega)
    rw [Nat.div_div_eq_div_mul, ← Nat.pow_succ', show a + 1 + j = a + (j + 1) by omega] at hrest
    rw [← hrest]
    apply readLE_congr
    intro i _
    rw [writeLE, Function.update_of_ne (by omega)]

theorem readLE_writeLE_disjoint (h : a + k ≤ b ∨ b + l ≤ a) :
    readLE l (writeLE k m a w) b = readLE l m b := by
  apply readLE_congr
  intro i hi
  exact writeLE_outside (by omega)

theorem readLE_fill_disjoint (v : UInt8) (h : a + n ≤ b ∨ b + l ≤ a) :
    readLE l (fill m a n v) b = readLE l m b := by
  apply readLE_congr
  intro i hi
  exact fill_outside v (by omega)

theorem readLE_fill_zero (hl : a ≤ b) (hu : b + l ≤ a + n) : readLE l (fill m a n 0) b = 0 := by
  induction l generalizing b with
  | zero => rfl
  | succ l ih =>
    rw [readLE, fill_inside 0 hl (by omega), ih (by omega) (by omega)]
    rfl

theorem writeBytes_outside {bytes : List UInt8} (h : b < a ∨ a + bytes.length ≤ b) :
    writeBytes m a bytes b = m b := by
  induction bytes generalizing m a with
  | nil => rfl
  | cons c bytes ih =>
    rw [List.length_cons] at h
    rw [writeBytes, ih (by omega), Function.update_of_ne (by omega)]

theorem writeBytes_inside {bytes : List UInt8} {i : Nat} (h : i < bytes.length) :
    writeBytes m a bytes (a + i) = bytes[i] := by
  induction bytes generalizing m a i with
  | nil => exact absurd h (Nat.not_lt_zero i)
  | cons c bytes ih =>
    rw [writeBytes]
    cases i with
    | zero =>
      rw [writeBytes_outside (by omega)]
      exact Function.update_self a c m
    | succ i =>
      rw [← Nat.add_assoc, Nat.add_right_comm]
      exact ih (Nat.lt_of_succ_lt_succ h)

/-- Stored bytes read back. -/
theorem range_writeBytes (m : Memory) (bytes : List UInt8) :
    (List.range bytes.length).map (writeBytes m 0 bytes) = bytes := by
  apply List.ext_getElem
  · rw [List.length_map, List.length_range]
  · intro i h1 h2
    rw [List.getElem_map, List.getElem_range]
    have hbyte : writeBytes m 0 bytes (0 + i) = bytes[i] := writeBytes_inside h2
    rwa [Nat.zero_add] at hbyte

end PaskakasaOS.Lib.ByteMemory
