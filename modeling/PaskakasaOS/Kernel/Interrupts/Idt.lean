import Mathlib.Data.List.GetD
import Mathlib.Tactic.IntervalCases
import PaskakasaOS.Kernel.Interrupts.EntryExit
import PaskakasaOS.Kernel.Interrupts.Handler
import PaskakasaOS.Lib.PackedRecord

/-!
# The interrupt descriptor table

`setup_interrupts` takes `vector_0_handler + i*16` for the entry point of vector
`i`. The assembler puts `vector_i_handler` there because no stub is longer than
the boundary the next one is aligned to.
-/
namespace PaskakasaOS.Kernel.Interrupts.Idt

open Lib.ByteMemory Lib.PackedRecord Stub EntryExit

/-! ## `kernel/interrupts/interrupts.c` -/

/-- The widths of the fields of `interrupt_descriptor_t`. -/
def interruptDescriptor : List Nat := [2, 2, 1, 1, 2, 4, 4]

abbrev addressLow : Nat := 0
abbrev selector : Nat := 1
abbrev ist : Nat := 2
abbrev flags : Nat := 3
abbrev addressMid : Nat := 4
abbrev addressHigh : Nat := 5
abbrev reserved : Nat := 6

/-- `&idt[vector]` -/
def idtEntry (idt : Nat) (vector : UInt8) : Nat := idt + 16 * vector.toNat

/-- The value of `entry->flags`. -/
def gateFlags (dpl : UInt8) : UInt8 := (0b1110 : UInt8) ||| ((dpl &&& 0b11) <<< (5 : UInt8)) ||| ((1 : UInt8) <<< (7 : UInt8))

/-- `set_idt_entry`: the reserved word is left as it is. -/
def setIdtEntry (m : Memory) (idt : Nat) (vector : UInt8) (handlerAddr : UInt64) (dpl : UInt8) :
    Memory :=
  let entry := idtEntry idt vector
  let m := setField interruptDescriptor m entry addressLow ((handlerAddr >>> 0x00) &&& 0xFFFF).toNat
  let m := setField interruptDescriptor m entry addressMid ((handlerAddr >>> 0x10) &&& 0xFFFF).toNat
  let m := setField interruptDescriptor m entry addressHigh
    ((handlerAddr >>> 0x20) &&& 0xFFFFFFFF).toNat
  let m := setField interruptDescriptor m entry selector 0x8
  let m := setField interruptDescriptor m entry flags (gateFlags dpl).toNat
  setField interruptDescriptor m entry ist 0

/-- `idtr_t` -/
structure Idtr where
  limit : UInt16
  base : UInt64

/-- `setup_interrupts`, with the operand of its `lidt`. -/
def setupInterrupts (m : Memory) (idt : Nat) (vector0Handler : UInt64) : Memory × Idtr :=
  ((List.range 256).foldl
    (fun m i => setIdtEntry m idt (UInt8.ofNat i) (vector0Handler + UInt64.ofNat i * 16) 0) m,
    ⟨0xFFF, UInt64.ofNat idt⟩)

/-! ## `kernel/interrupts/interrupt_vectors.asm` -/

/-- The instructions of the stubs. -/
inductive Instr where
  | push (imm : UInt64)
  | jmpInterruptStub

/-- An immediate that fits a signed byte takes one; the jump is to another file. -/
def Instr.size : Instr → Nat
  | .push imm => if imm < 0x80 then 2 else 5
  | .jmpInterruptStub => 5

def Instr.exec (st : Stack) : Instr → Stack
  | .push imm => imm :: st
  | .jmpInterruptStub => st

/-- The text of `vector_n_handler`. -/
def stub (n : Nat) : List Instr :=
  if n = 8 ∨ (10 ≤ n ∧ n ≤ 14) then [.push (dollar n), .jmpInterruptStub]
  else if n = 32 then [.push 0x6969, .push (dollar n), .jmpInterruptStub]
  else [.push 0, .push (dollar n), .jmpInterruptStub]

/-- `align 16` -/
def align (a : Nat) : Nat := (a + 15) / 16 * 16

/-- Where the assembler puts `vector_n_handler` when the file begins at `start`. -/
def vectorHandlerAddress (start : Nat) : Nat → Nat
  | 0 => align start
  | n + 1 => align (vectorHandlerAddress start n + ((stub n).map Instr.size).sum)

/-- The stub that begins at address `a`. -/
def stubAt (start a : Nat) : Option (List Instr) :=
  ((List.range 256).find? (fun n => vectorHandlerAddress start n = a)).map stub

theorem exec_stub (n : Nat) (st : Stack) : (stub n).foldl Instr.exec st = vectorHandler n st := by
  rw [stub, vectorHandler]
  split
  · rfl
  · split <;> rfl

theorem size_bounds (i : Instr) : 2 ≤ i.size ∧ i.size ≤ 5 := by
  cases i with
  | push imm =>
    rw [Instr.size]
    split <;> decide
  | jmpInterruptStub => decide

/-- At most three instructions of at most five bytes. -/
theorem stub_size (n : Nat) : 0 < ((stub n).map Instr.size).sum ∧ ((stub n).map Instr.size).sum ≤ 16 := by
  have hdummy := size_bounds (.push 0)
  have htimer := size_bounds (.push 0x6969)
  have hvector := size_bounds (.push (dollar n))
  have hjmp := size_bounds .jmpInterruptStub
  rw [stub]
  split
  · simp only [List.map_cons, List.map_nil, List.sum_cons, List.sum_nil]
    omega
  · split
    · simp only [List.map_cons, List.map_nil, List.sum_cons, List.sum_nil]
      omega
    · simp only [List.map_cons, List.map_nil, List.sum_cons, List.sum_nil]
      omega

theorem vectorHandlerAddress_eq (start n : Nat) :
    vectorHandlerAddress start n = align start + 16 * n := by
  induction n with
  | zero => rfl
  | succ n ih =>
    obtain ⟨hpos, hle⟩ := stub_size n
    rw [vectorHandlerAddress, ih]
    unfold align
    omega

theorem stubAt_handler (start : Nat) {n : Nat} (hn : n < 256) :
    stubAt start (vectorHandlerAddress start n) = some (stub n) := by
  have hfind : (List.range 256).find?
      (fun k => vectorHandlerAddress start k = vectorHandlerAddress start n) = some n := by
    rw [List.find?_range_eq_some]
    refine ⟨by simp, List.mem_range.mpr hn, ?_⟩
    intro k hk
    have hne : vectorHandlerAddress start k ≠ vectorHandlerAddress start n := by
      rw [vectorHandlerAddress_eq, vectorHandlerAddress_eq]
      omega
    simp [hne]
  rw [stubAt, hfind, Option.map_some]

/-! ## The processor -/

/-- A gate as the processor reads it. -/
structure Gate where
  offset : Nat
  selector : Nat
  ist : Nat
  type : Nat
  dpl : Nat
  present : Bool
  deriving DecidableEq

/-- The gate in the 16 bytes from `a` on; the type has the system bit on top. -/
def gateAt (m : Memory) (a : Nat) : Gate where
  offset := readLE 2 m a + 2 ^ 16 * readLE 2 m (a + 6) + 2 ^ 32 * readLE 4 m (a + 8)
  selector := readLE 2 m (a + 2)
  ist := readLE 1 m (a + 4) % 8
  type := readLE 1 m (a + 5) % 32
  dpl := readLE 1 m (a + 5) / 32 % 4
  present := readLE 1 m (a + 5) / 128 = 1

/-- The gate of a vector, when the table reaches that far. -/
def gateOf (m : Memory) (idtr : Idtr) (vector : Nat) : Option Gate :=
  if 16 * vector + 15 ≤ idtr.limit.toNat then some (gateAt m (idtr.base.toNat + 16 * vector)) else none

/-- A present 64-bit interrupt gate to kernel code, open to ring 0 only, on the stack in use. -/
def kernelGate (offset : Nat) : Gate := ⟨offset, 8, 0, 0xE, 0, true⟩

theorem gateAt_eq (m : Memory) (a : Nat) :
    gateAt m a =
      { offset := getField interruptDescriptor m a addressLow +
          2 ^ 16 * getField interruptDescriptor m a addressMid +
          2 ^ 32 * getField interruptDescriptor m a addressHigh
        selector := getField interruptDescriptor m a selector
        ist := getField interruptDescriptor m a ist % 8
        type := getField interruptDescriptor m a flags % 32
        dpl := getField interruptDescriptor m a flags / 32 % 4
        present := getField interruptDescriptor m a flags / 128 = 1 } := rfl

variable {m : Memory} {idt n b : Nat} {vector dpl : UInt8} {h : UInt64}

theorem gateFlags_toNat (dpl : UInt8) : (gateFlags dpl).toNat = 0x8E + 32 * (dpl.toNat % 4) := by
  have hring : dpl &&& 0b11 = UInt8.ofNat (dpl.toNat % 4) := by
    apply UInt8.toNat_inj.mp
    rw [UInt8.toNat_and, UInt8.toNat_ofNat', Nat.mod_eq_of_lt (by omega)]
    exact Nat.and_two_pow_sub_one_eq_mod _ 2
  rw [gateFlags, hring]
  have hlt : dpl.toNat % 4 < 4 := Nat.mod_lt _ (by decide)
  generalize dpl.toNat % 4 = r at hlt ⊢
  interval_cases r <;> rfl

/-- The parts of the handler's address, and what the other fields become. -/
theorem getField_setIdtEntry (m : Memory) (idt : Nat) (vector : UInt8) (h : UInt64) (dpl : UInt8) :
    let f := getField interruptDescriptor (setIdtEntry m idt vector h dpl) (idtEntry idt vector)
    f addressLow = h.toNat % 2 ^ 16 ∧ f addressMid = h.toNat / 2 ^ 16 % 2 ^ 16 ∧
      f addressHigh = h.toNat / 2 ^ 32 ∧ f selector = 8 ∧ f flags = 0x8E + 32 * (dpl.toNat % 4) ∧
      f ist = 0 ∧
      f reserved = getField interruptDescriptor m (idtEntry idt vector) reserved := by
  have hlow : ((h >>> 0x00) &&& 0xFFFF).toNat = h.toNat % 2 ^ 16 := by
    rw [UInt64.toNat_and, UInt64.toNat_shiftRight]
    exact Nat.and_two_pow_sub_one_eq_mod _ 16
  have hmid : ((h >>> 0x10) &&& 0xFFFF).toNat = h.toNat / 2 ^ 16 % 2 ^ 16 := by
    rw [UInt64.toNat_and, UInt64.toNat_shiftRight, Nat.shiftRight_eq_div_pow]
    exact Nat.and_two_pow_sub_one_eq_mod _ 16
  have hhigh : ((h >>> 0x20) &&& 0xFFFFFFFF).toNat = h.toNat / 2 ^ 32 := by
    rw [UInt64.toNat_and, UInt64.toNat_shiftRight, Nat.shiftRight_eq_div_pow]
    have hmask : h.toNat / 2 ^ 32 &&& 2 ^ 32 - 1 = h.toNat / 2 ^ 32 % 2 ^ 32 :=
      Nat.and_two_pow_sub_one_eq_mod _ 32
    have hlt := h.toNat_lt
    exact hmask.trans (Nat.mod_eq_of_lt (by omega))
  have hdpl := gateFlags_toNat dpl
  have hsep : ∀ (m : Memory) (i j v : Nat), i ≠ j → i < 7 → j < 7 →
      getField interruptDescriptor (setField interruptDescriptor m (idtEntry idt vector) i v)
        (idtEntry idt vector) j = getField interruptDescriptor m (idtEntry idt vector) j :=
    fun m i j v hij hi hj => getField_setField_of_ne hij hi hj
  simp only [setIdtEntry]
  refine ⟨?_, ?_, ?_, ?_, ?_, ?_, ?_⟩
  all_goals
    simp (disch := decide) only [hsep, getField_setField_self]
  · rw [hlow]
    exact Nat.mod_mod _ _
  · rw [hmid]
    exact Nat.mod_mod _ _
  · rw [hhigh]
    have hlt := h.toNat_lt
    exact Nat.mod_eq_of_lt (show _ < 2 ^ 32 by omega)
  · rfl
  · rw [hdpl]
    exact Nat.mod_eq_of_lt (show _ < 256 by omega)
  · rfl

theorem setIdtEntry_outside (hb : b < idtEntry idt vector ∨ idtEntry idt vector + 16 ≤ b) :
    setIdtEntry m idt vector h dpl b = m b := by
  have hfield : ∀ (m : Memory) (i v : Nat), i < 7 →
      setField interruptDescriptor m (idtEntry idt vector) i v b = m b :=
    fun m i v hi => setField_outside hi hb
  simp (disch := decide) only [setIdtEntry, hfield]

theorem gateAt_setIdtEntry (m : Memory) (idt : Nat) (vector : UInt8) (h : UInt64) :
    gateAt (setIdtEntry m idt vector h 0) (idtEntry idt vector) = kernelGate h.toNat := by
  obtain ⟨hlow, hmid, hhigh, hselector, hflags, hist, _⟩ := getField_setIdtEntry m idt vector h 0
  have hparts : h.toNat % 2 ^ 16 + 2 ^ 16 * (h.toNat / 2 ^ 16 % 2 ^ 16) +
      2 ^ 32 * (h.toNat / 2 ^ 32) = h.toNat := by
    omega
  rw [gateAt_eq, hlow, hmid, hhigh, hselector, hflags, hist, hparts]
  rfl

theorem gateAt_congr {m' : Memory} {a : Nat} (hsame : ∀ k < 16, m (a + k) = m' (a + k)) :
    gateAt m a = gateAt m' a := by
  have hfield : ∀ i < 7, getField interruptDescriptor m a i = getField interruptDescriptor m' a i :=
    fun i hi => getField_congr hi hsame
  rw [gateAt_eq, gateAt_eq, hfield _ (by decide), hfield _ (by decide), hfield _ (by decide),
    hfield _ (by decide), hfield _ (by decide), hfield _ (by decide)]

/-! ## The table -/

/-- The first `k` rounds of the loop of `setup_interrupts`. -/
def rounds (m : Memory) (idt : Nat) (vector0Handler : UInt64) (k : Nat) : Memory :=
  (List.range k).foldl
    (fun m i => setIdtEntry m idt (UInt8.ofNat i) (vector0Handler + UInt64.ofNat i * 16) 0) m

theorem setupInterrupts_eq (m : Memory) (idt : Nat) (v : UInt64) :
    setupInterrupts m idt v = (rounds m idt v 256, ⟨0xFFF, UInt64.ofNat idt⟩) := by
  rw [setupInterrupts, rounds]

theorem rounds_succ (m : Memory) (idt : Nat) (v : UInt64) (k : Nat) :
    rounds m idt v (k + 1) =
      setIdtEntry (rounds m idt v k) idt (UInt8.ofNat k) (v + UInt64.ofNat k * 16) 0 := by
  rw [rounds, List.range_succ, List.foldl_append]
  rfl

theorem idtEntry_ofNat {k : Nat} (hk : k < 256) : idtEntry idt (UInt8.ofNat k) = idt + 16 * k := by
  rw [idtEntry, UInt8.toNat_ofNat', Nat.mod_eq_of_lt hk]

/-- A round leaves the gates of the earlier ones. -/
theorem gateAt_rounds {v : UInt64} {k : Nat} (hk : k ≤ 256) (hn : n < k) :
    gateAt (rounds m idt v k) (idt + 16 * n) = kernelGate (v + UInt64.ofNat n * 16).toNat := by
  induction k with
  | zero => exact absurd hn (Nat.not_lt_zero n)
  | succ k ih =>
    rw [rounds_succ]
    have hplace : idtEntry idt (UInt8.ofNat k) = idt + 16 * k := idtEntry_ofNat hk
    rcases Nat.lt_succ_iff_lt_or_eq.mp hn with hlt | rfl
    · rw [← ih (Nat.le_of_succ_le hk) hlt]
      apply gateAt_congr
      intro i hi
      exact setIdtEntry_outside (by omega)
    · rw [← hplace]
      exact gateAt_setIdtEntry _ idt _ _

theorem rounds_outside {v : UInt64} {k : Nat} (hk : k ≤ 256) (hb : b < idt ∨ idt + 16 * k ≤ b) :
    rounds m idt v k b = m b := by
  induction k with
  | zero => rfl
  | succ k ih =>
    have hplace : idtEntry idt (UInt8.ofNat k) = idt + 16 * k := idtEntry_ofNat hk
    rw [rounds_succ, setIdtEntry_outside (by omega)]
    exact ih (Nat.le_of_succ_le hk) (by omega)

/-- The limit takes in all 256 gates. -/
theorem gateOf_idtr (m : Memory) (hidt : idt + 4096 ≤ 2 ^ 64) (n : Nat) :
    gateOf m ⟨0xFFF, UInt64.ofNat idt⟩ n = if n < 256 then some (gateAt m (idt + 16 * n)) else none := by
  have hbase : (UInt64.ofNat idt).toNat = idt := by
    rw [UInt64.toNat_ofNat', Nat.mod_eq_of_lt (by omega)]
  have hlimit : 16 * n + 15 ≤ (0xFFF : UInt16).toNat ↔ n < 256 := by
    show 16 * n + 15 ≤ 4095 ↔ _
    omega
  rw [gateOf, hbase]
  simp only [hlimit]

/-- Each of the 256 vectors leads through a kernel gate to the address at which the
assembler has put its stub, and nothing outside the table has changed. -/
structure Installed (m : Memory) (idt start : Nat) (after : Memory × Idtr) : Prop where
  gate : ∀ n, gateOf after.1 after.2 n =
    if n < 256 then some (kernelGate (vectorHandlerAddress start n)) else none
  outside : ∀ b, b < idt ∨ idt + 4096 ≤ b → after.1 b = m b

theorem setupInterrupts_installed (m : Memory) {idt start : Nat} (hidt : idt + 4096 ≤ 2 ^ 64)
    (htext : align start + 4096 ≤ 2 ^ 64) :
    Installed m idt start
      (setupInterrupts m idt (UInt64.ofNat (vectorHandlerAddress start 0))) := by
  rw [setupInterrupts_eq]
  generalize hv : UInt64.ofNat (vectorHandlerAddress start 0) = v
  have hgate : ∀ n < 256, gateAt (rounds m idt v 256) (idt + 16 * n) =
      kernelGate (v + UInt64.ofNat n * 16).toNat :=
    fun n hn => gateAt_rounds (Nat.le_refl 256) hn
  have houtside : ∀ b, b < idt ∨ idt + 16 * 256 ≤ b → rounds m idt v 256 b = m b :=
    fun b hb => rounds_outside (Nat.le_refl 256) hb
  generalize rounds m idt v 256 = m' at hgate houtside ⊢
  refine ⟨fun n => ?_, fun b hb => houtside b (by omega)⟩
  rw [gateOf_idtr _ hidt]
  by_cases hn : n < 256
  · have hoffset : (v + UInt64.ofNat n * 16).toNat = vectorHandlerAddress start n := by
      rw [← hv, vectorHandlerAddress_eq, vectorHandlerAddress_eq, UInt64.toNat_add, UInt64.toNat_mul,
        UInt64.toNat_ofNat', UInt64.toNat_ofNat']
      show ((align start + 16 * 0) % 2 ^ 64 + n % 2 ^ 64 * 16 % 2 ^ 64) % 2 ^ 64 = _
      omega
    rw [if_pos hn, if_pos hn, hgate n hn, hoffset]
  · rw [if_neg hn, if_neg hn]

/-- A kernel linked at its address, with the stubs behind other code. -/
theorem setupInterrupts_installed_linked :
    Installed (fun _ => 0) 0xFFFFFFFF80010000 0xFFFFFFFF80003005
      (setupInterrupts (fun _ => 0) 0xFFFFFFFF80010000
        (UInt64.ofNat (vectorHandlerAddress 0xFFFFFFFF80003005 0))) :=
  setupInterrupts_installed (fun _ => 0) (by decide) (by decide)

end PaskakasaOS.Kernel.Interrupts.Idt
