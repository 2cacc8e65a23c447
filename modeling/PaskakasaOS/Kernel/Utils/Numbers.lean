import PaskakasaOS.Lib.Numerals
import PaskakasaOS.Kernel.Utils.TextTerminal

/-!
# Numbers as text

`itoa` writes the digits of a number backwards into an array of 21 bytes and copies
them from its end into the caller's buffer. The functions with a question mark stop
at a write outside the array or the buffer.
-/
namespace PaskakasaOS.Kernel.Utils.Numbers

open Lib.ByteMemory Lib.Numerals
open TextTerminal

/-! ## The loops of `itoa` -/

/-- The `do` loop, from the quotient `v` and the pointer `tp` into `tmp[21]` on. -/
def generate? (radix : Nat) : Nat → Nat → Memory → Nat → Option (Memory × Nat)
  | 0, _, _, _ => none
  | fuel + 1, v, tmp, tp =>
    if tp < 21 then
      let tmp := Function.update tmp tp (digit (v % radix))
      if v / radix = 0 then some (tmp, tp + 1) else generate? radix fuel (v / radix) tmp (tp + 1)
    else none

/-- The loop that copies `tmp` back to front, into a buffer of `size` bytes. -/
def copyBack? (size : Nat) (tmp : Memory) : Nat → Memory → Nat → Option Memory
  | 0, buffer, _ => some buffer
  | tp + 1, buffer, sp =>
    if sp < size then copyBack? size tmp tp (Function.update buffer sp (tmp tp)) (sp + 1) else none

/-- `itoa`: what it returns and the buffer it leaves. -/
def itoa? (size : Nat) (value : UInt64) (radix : Nat) (tmp buffer : Memory) :
    Option (Nat × Memory) :=
  if radix < 2 ∨ radix > 36 then some (0, buffer)
  else do
    let (tmp, len) ← generate? radix 64 value.toNat tmp 0
    let buffer ← copyBack? size tmp len buffer 0
    some (len, buffer)

/-- `print_int`, with what its buffer and the array of `itoa` held before. -/
def printInt? (t : Console) (hex : UInt64) (tmp buffer : Memory) : Option Console := do
  let (n, buffer) ← itoa? 40 hex 10 tmp buffer
  let t := printcount t ((List.range n).map buffer)
  some (print t [0xa])

/-- `print_hex` -/
def printHex? (t : Console) (hex : UInt64) (tmp buffer : Memory) : Option Console := do
  let t := print t [0x30, 0x78]
  let (n, buffer) ← itoa? 40 hex 16 tmp buffer
  let t := printcount t ((List.range n).map buffer)
  some (print t [0xa])

/-! ## The digits -/

section Loops

variable {radix : Nat}

theorem itoaLoop_eq (hradix : 1 < radix) {fuel v : Nat} (hfuel : (numeral radix v).length ≤ fuel)
    (out : List UInt8) :
    itoaLoop radix fuel v out = ((numeral radix v).map digit).reverse ++ out := by
  induction fuel generalizing v out with
  | zero => exact absurd hfuel (Nat.not_le_of_lt (length_numeral_pos radix v))
  | succ fuel ih =>
    rw [numeral_eq hradix] at hfuel ⊢
    rw [itoaLoop]
    by_cases hv : v / radix = 0
    · rw [if_pos hv, if_pos hv]
      rfl
    · rw [if_neg hv, List.length_cons] at hfuel
      rw [if_neg hv, if_neg hv, ih (Nat.le_of_succ_le_succ hfuel), List.map_cons,
        List.reverse_cons, List.append_assoc]
      rfl

/-- The array ends up with the digits, unless there are too many of them. -/
theorem generate?_eq (hradix : 1 < radix) {fuel v tp : Nat}
    (hfuel : (numeral radix v).length ≤ fuel) (tmp : Memory) :
    generate? radix fuel v tmp tp =
      if tp + (numeral radix v).length ≤ 21 then
        some (writeBytes tmp tp ((numeral radix v).map digit), tp + (numeral radix v).length)
      else none := by
  induction fuel generalizing v tp tmp with
  | zero => exact absurd hfuel (Nat.not_le_of_lt (length_numeral_pos radix v))
  | succ fuel ih =>
    rw [numeral_eq hradix] at hfuel ⊢
    rw [generate?]
    by_cases hroom : tp < 21
    · rw [if_pos hroom]
      by_cases hv : v / radix = 0
      · have hlast : tp + [v % radix].length ≤ 21 := hroom
        rw [if_pos hv, if_pos hv, if_pos hlast]
        rfl
      · rw [if_neg hv, List.length_cons] at hfuel
        have hcount : tp + ((numeral radix (v / radix)).length + 1) =
            tp + 1 + (numeral radix (v / radix)).length := by omega
        rw [if_neg hv, if_neg hv, ih (Nat.le_of_succ_le_succ hfuel), List.length_cons, hcount]
        rfl
    · have hfull : ¬ tp + (v % radix :: if v / radix = 0 then [] else
          numeral radix (v / radix)).length ≤ 21 := by
        rw [List.length_cons]
        omega
      rw [if_neg hroom, if_neg hfull]

theorem copyBack?_eq {size tp sp : Nat} (tmp buffer : Memory) (hsp : sp ≤ size) :
    copyBack? size tmp tp buffer sp =
      if sp + tp ≤ size then some (writeBytes buffer sp ((List.range tp).map tmp).reverse)
      else none := by
  induction tp generalizing buffer sp with
  | zero =>
    rw [Nat.add_zero, if_pos hsp]
    rfl
  | succ tp ih =>
    rw [copyBack?, List.range_succ, List.map_append, List.reverse_append]
    by_cases hroom : sp < size
    · have hcount : sp + 1 + tp = sp + (tp + 1) := by omega
      rw [if_pos hroom, ih _ hroom, hcount]
      rfl
    · rw [if_neg hroom, if_neg (by omega)]

/-- A 64-bit number has at most 64 digits. -/
theorem length_numeral_le (hradix : 1 < radix) (value : UInt64) :
    (numeral radix value.toNat).length ≤ 64 := by
  rw [length_numeral_le_iff hradix (by decide)]
  exact value.toNat_lt.trans_le (Nat.pow_le_pow_left hradix 64)

theorem itoa_eq (hradix : 2 ≤ radix ∧ radix ≤ 36) (value : UInt64) :
    itoa value radix = ((numeral radix value.toNat).map digit).reverse := by
  rw [itoa, if_neg (by omega), itoaLoop_eq hradix.1 (length_numeral_le hradix.1 value),
    List.append_nil]

theorem length_itoa (hradix : 2 ≤ radix ∧ radix ≤ 36) (value : UInt64) :
    (itoa value radix).length = (numeral radix value.toNat).length := by
  rw [itoa_eq hradix, List.length_reverse, List.length_map]

/-- On array and buffer `itoa` does what it does on lists, if there is room for the digits. -/
theorem itoa?_eq (size : Nat) (value : UInt64) (radix : Nat) (tmp buffer : Memory) :
    itoa? size value radix tmp buffer =
      if (itoa value radix).length ≤ 21 ∧ (itoa value radix).length ≤ size then
        some ((itoa value radix).length, writeBytes buffer 0 (itoa value radix))
      else none := by
  by_cases hguard : radix < 2 ∨ radix > 36
  · rw [itoa?, if_pos hguard, itoa, if_pos hguard]
    exact (if_pos ⟨Nat.zero_le 21, Nat.zero_le size⟩).symm
  · have hradix : 2 ≤ radix ∧ radix ≤ 36 := by omega
    have hgenerate := @generate?_eq radix hradix.1 64 value.toNat 0 (length_numeral_le hradix.1 value) tmp
    rw [Nat.zero_add] at hgenerate
    rw [itoa?, if_neg hguard, hgenerate, length_itoa hradix]
    by_cases hscratch : (numeral radix value.toNat).length ≤ 21
    · have hback := @copyBack?_eq size (numeral radix value.toNat).length 0
        (writeBytes tmp 0 ((numeral radix value.toNat).map digit)) buffer (Nat.zero_le size)
      have hdigits := range_writeBytes tmp ((numeral radix value.toNat).map digit)
      rw [List.length_map] at hdigits
      rw [hdigits, Nat.zero_add, ← itoa_eq hradix] at hback
      rw [if_pos hscratch]
      simp only [Option.bind_eq_bind, Option.bind_some, hback, hscratch, true_and]
      by_cases hsize : (numeral radix value.toNat).length ≤ size
      · rw [if_pos hsize, if_pos hsize]
        rfl
      · rw [if_neg hsize, if_neg hsize]
        rfl
    · rw [if_neg hscratch, if_neg fun h => hscratch h.1]
      rfl

end Loops

/-! ## The size of the array -/

/-- No write through `tp` leaves the array, which holds all the digits. -/
def ScratchSuffices (value : UInt64) (radix : Nat) : Prop :=
  (itoa value radix).length ≤ 21 ∧ ∀ tmp, ∃ r, generate? radix 64 value.toNat tmp 0 = some r

/-- The array is large enough for the numbers of at most 21 digits. -/
theorem scratchSuffices_iff (value : UInt64) (radix : Nat) (hradix : 2 ≤ radix ∧ radix ≤ 36) :
    ScratchSuffices value radix ↔ value.toNat < radix ^ 21 := by
  rw [ScratchSuffices, length_itoa hradix, length_numeral_le_iff hradix.1 (by decide)]
  refine ⟨fun h => h.1, fun h => ⟨h, fun tmp => ?_⟩⟩
  rw [generate?_eq hradix.1 (length_numeral_le hradix.1 value), Nat.zero_add,
    if_pos ((length_numeral_le_iff hradix.1 (by decide)).mpr h)]
  exact ⟨_, rfl⟩

/-- From radix 9 on every 64-bit number has so few digits. -/
theorem lt_pow_of_nine_le {radix : Nat} (h : 9 ≤ radix) (value : UInt64) :
    value.toNat < radix ^ 21 := by
  have hnine : (9 : Nat) ^ 21 ≤ radix ^ 21 := Nat.pow_le_pow_left h 21
  have hvalue : value.toNat < 2 ^ 64 := value.toNat_lt
  omega

theorem scratchSuffices_iff_hexadecimal :
    ScratchSuffices 0xFFFFFFFFFFFFFFFF 16 ↔ (0xFFFFFFFFFFFFFFFF : UInt64).toNat < 16 ^ 21 :=
  scratchSuffices_iff _ 16 (by decide)

/-- `2 ^ 21` has 22 binary digits. -/
theorem not_scratchSuffices :
    ¬ ∀ (value : UInt64) (radix : Nat), 2 ≤ radix ∧ radix ≤ 36 → ScratchSuffices value radix := by
  intro h
  exact absurd (h 2097152 2 (by decide)).1 (by decide)

/-! ## What is printed -/

/-- The digit a character stands for. -/
def digitOf (c : UInt8) : Option Nat :=
  if 0x30 ≤ c ∧ c ≤ 0x39 then some (c.toNat - 0x30)
  else if 0x61 ≤ c ∧ c ≤ 0x7a then some (c.toNat - 0x61 + 10)
  else none

/-- The number a text denotes, if it consists of digits of the base. -/
def evaluate (base : Nat) (text : List UInt8) : Option Nat :=
  text.foldlM (fun v c => (digitOf c).bind fun d => if d < base then some (v * base + d) else none) 0

/-- The text is the number in the base, without leading zeros. -/
structure Denotes (base : Nat) (text : List UInt8) (v : Nat) : Prop where
  value : evaluate base text = some v
  zero : v = 0 → text = [0x30]
  leading : v ≠ 0 → text.head? ≠ some 0x30
  scratch : text.length ≤ 21
  buffer : text.length ≤ 40

section Printed

variable {radix : Nat}

theorem digitOf_digit {d : Nat} (hd : d < 36) : digitOf (digit d) = some d := by
  have hall : ∀ d < 36, digitOf (digit d) = some d := by decide
  exact hall d hd

theorem evaluate_digits {ds : List Nat} (hradix : radix ≤ 36) (hds : ∀ d ∈ ds, d < radix) (v : Nat) :
    (ds.map digit).foldlM (fun v c => (digitOf c).bind fun d =>
      if d < radix then some (v * radix + d) else none) v =
      some (ds.foldl (fun v d => v * radix + d) v) := by
  induction ds generalizing v with
  | nil => rfl
  | cons d ds ih =>
    have hd := hds d List.mem_cons_self
    rw [List.map_cons, List.foldlM_cons, digitOf_digit (by omega), Option.bind_some, if_pos hd]
    exact ih (fun d' hd' => hds d' (List.mem_cons_of_mem d hd')) _

theorem denotes_itoa (hradix : 2 ≤ radix ∧ radix ≤ 36) {value : UInt64}
    (hvalue : value.toNat < radix ^ 21) : Denotes radix (itoa value radix) value.toNat := by
  have hlength : (itoa value radix).length ≤ 21 := by
    rw [length_itoa hradix]
    exact (length_numeral_le_iff hradix.1 (by decide)).mpr hvalue
  have hdigits : ∀ d ∈ (numeral radix value.toNat).reverse, d < radix := fun d hd =>
    lt_of_mem_numeral hradix.1 (List.mem_reverse.mp hd)
  have hmap := itoa_eq hradix value
  rw [← List.map_reverse] at hmap
  refine ⟨?_, ?_, ?_, hlength, by omega⟩
  · have hvalue : (numeral radix value.toNat).reverse.foldl (fun v d => v * radix + d) 0 =
        value.toNat := value_reverse_numeral radix value.toNat
    rw [hmap, evaluate, evaluate_digits hradix.2 hdigits, hvalue]
  · intro hzero
    rw [hmap, hzero]
    rfl
  · intro hne hhead
    rw [hmap, List.head?_map, Option.map_eq_some_iff] at hhead
    obtain ⟨d, hd, hchar⟩ := hhead
    have hlt := hdigits d (List.mem_of_head? hd)
    have hd0 : digitOf (digit d) = some 0 := by
      rw [hchar]
      rfl
    rw [digitOf_digit (by omega)] at hd0
    rw [Option.some.inj hd0] at hd
    exact head_reverse_numeral hne hd

/-- Different numbers are different texts. -/
theorem Denotes.unique {base v v' : Nat} {text : List UInt8} (h : Denotes base text v)
    (h' : Denotes base text v') : v = v' := by
  have heq := h.value.symm.trans h'.value
  exact Option.some.inj heq

theorem itoa?_of_denotes {value : UInt64} (h : Denotes radix (itoa value radix) value.toNat)
    (tmp buffer : Memory) : itoa? 40 value radix tmp buffer =
      some ((itoa value radix).length, writeBytes buffer 0 (itoa value radix)) := by
  rw [itoa?_eq, if_pos ⟨h.scratch, h.buffer⟩]

/-- The calls of a function that prints a number pass on the text of the number. -/
theorem printcount_append (t : Console) (s s' : List UInt8) :
    printcount (printcount t s) s' = printcount t (s ++ s') := by
  rw [printcount, printcount, printcount, List.foldl_append]

end Printed

/-- `print_hex` and `print_int` send the number, in bases 16 and 10, on every terminal
and whatever their arrays held; different numbers are sent as different texts. -/
theorem printed_number (value : UInt64) :
    (Denotes 16 (itoa value 16) value.toNat ∧ ∀ t tmp buffer, printHex? t value tmp buffer =
      some (printcount t ([0x30, 0x78] ++ itoa value 16 ++ [0xa]))) ∧
    (Denotes 10 (itoa value 10) value.toNat ∧ ∀ t tmp buffer, printInt? t value tmp buffer =
      some (printcount t (itoa value 10 ++ [0xa]))) ∧
    ∀ value', itoa value 16 = itoa value' 16 ∨ itoa value 10 = itoa value' 10 → value = value' := by
  have hhex : ∀ value, Denotes 16 (itoa value 16) value.toNat := fun value =>
    denotes_itoa (by decide) (lt_pow_of_nine_le (by decide) value)
  have hint : ∀ value, Denotes 10 (itoa value 10) value.toNat := fun value =>
    denotes_itoa (by decide) (lt_pow_of_nine_le (by decide) value)
  refine ⟨⟨hhex value, fun t tmp buffer => ?_⟩, ⟨hint value, fun t tmp buffer => ?_⟩, ?_⟩
  · rw [printHex?, itoa?_of_denotes (hhex value)]
    simp only [Option.bind_eq_bind, Option.bind_some, range_writeBytes]
    rw [← printcount_append, ← printcount_append]
    rfl
  · rw [printInt?, itoa?_of_denotes (hint value)]
    simp only [Option.bind_eq_bind, Option.bind_some, range_writeBytes]
    rw [← printcount_append]
    rfl
  · intro value' hsame
    rw [← UInt64.toNat_inj]
    rcases hsame with hsame | hsame
    · exact (hhex value).unique (hsame ▸ hhex value')
    · exact (hint value).unique (hsame ▸ hint value')

end PaskakasaOS.Kernel.Utils.Numbers
