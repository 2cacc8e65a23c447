import Mathlib.Data.List.Basic
import PaskakasaOS.Kernel.Interrupts.Stub

/-!
# Which events survive the interrupt stubs

The stub of a vector pushes a word in the place of the error code, unless its
author expected the processor to push one. The frame describes the interrupted
state when that expectation is right, and is shifted by one word otherwise.
-/
namespace PaskakasaOS.Kernel.Interrupts.EntryExit

open Stub

/-- What the processor can deliver: an exception, or an interrupt at any vector. -/
inductive Event where
  | exception (n : Fin 32)
  | interrupt (n : Fin 256)
  deriving DecidableEq

def Event.vector : Event → Nat
  | .exception n => n
  | .interrupt n => n

/-- The exceptions for which the architecture defines an error code: #DF, #TS, #NP,
#SS, #GP, #PF, #AC, #CP, #VC and #SX. -/
def Event.HasErrorCode : Event → Prop
  | .exception n => n.val ∈ [8, 10, 11, 12, 13, 14, 17, 21, 29, 30]
  | .interrupt _ => False

instance : DecidablePred Event.HasErrorCode
  | .exception n => inferInstanceAs (Decidable (n.val ∈ [8, 10, 11, 12, 13, 14, 17, 21, 29, 30]))
  | .interrupt _ => inferInstanceAs (Decidable False)

/-- The vectors whose stub leaves the error code to the processor. -/
def ExpectsErrorCode (n : Nat) : Prop := n = 8 ∨ (10 ≤ n ∧ n ≤ 14)

instance : DecidablePred ExpectsErrorCode := fun _ => inferInstanceAs (Decidable (_ ∨ _ ∧ _))

/-- The stack at the call of the handler, over the `below` of the interrupted code. -/
def frame (cpu : Cpu) (event : Event) (code : UInt64) (below : Stack) : Stack :=
  let pushed := if event.HasErrorCode then some code else none
  stubEntry cpu.regs (vectorHandler event.vector (processorFrame cpu pushed ++ below))

/-- The handler sees the interrupted state in the frame, and the exit path restores
it from the same frame whatever the handler leaves in the registers. -/
structure Preserved (cpu : Cpu) (event : Event) (code : UInt64) (below : Stack)
    (left : Reg → UInt64) : Prop where
  frame : (CpuStatus.ofWords (frame cpu event code below)).cpu = cpu
  restored : stubExit left (EntryExit.frame cpu event code below) = cpu

/-- The state the frame stands for when `st` lies above the registers. -/
def framed (regs : Reg → UInt64) (st : Stack) : Cpu where
  regs := regs
  rip := st.getD 2 0
  cs := st.getD 3 0
  rflags := st.getD 4 0
  rsp := st.getD 5 0
  ss := st.getD 6 0

theorem cpu_ofWords_stubEntry (regs : Reg → UInt64) (st : Stack) :
    (CpuStatus.ofWords (stubEntry regs st)).cpu = framed regs st := by
  refine Cpu.ext ?_ rfl rfl rfl rfl rfl
  funext r
  cases r <;> rfl

theorem pops_stubEntry (left regs : Reg → UInt64) (st : Stack) :
    pops.foldl pop (left, stubEntry regs st) = (regs, st) := by
  refine Prod.ext ?_ rfl
  funext r
  cases r <;> rfl

theorem stubExit_stubEntry (left regs : Reg → UInt64) (st : Stack) :
    stubExit left (stubEntry regs st) = framed regs st := by
  simp only [stubExit, pops_stubEntry, framed, List.getD_eq_getElem?_getD, List.getElem?_drop]

theorem preserved_iff (cpu : Cpu) (event : Event) (code : UInt64) (below : Stack)
    (left : Reg → UInt64) :
    Preserved cpu event code below left ↔
      framed cpu.regs (vectorHandler event.vector
        (processorFrame cpu (if event.HasErrorCode then some code else none) ++ below)) = cpu := by
  constructor
  · intro h
    have hframe := h.frame
    rwa [frame, cpu_ofWords_stubEntry] at hframe
  · intro h
    constructor
    · rwa [frame, cpu_ofWords_stubEntry]
    · rwa [frame, stubExit_stubEntry]

/-! ## The stubs -/

theorem vectorHandler_expects {n : Nat} (h : ExpectsErrorCode n) (st : Stack) :
    vectorHandler n st = dollar n :: st :=
  if_pos h

theorem vectorHandler_dummy {n : Nat} (h : ¬ ExpectsErrorCode n) (st : Stack) :
    ∃ dummy, vectorHandler n st = dollar n :: dummy :: st := by
  have hstub : ¬ (n = 8 ∨ (10 ≤ n ∧ n ≤ 14)) := h
  rw [vectorHandler, if_neg hstub]
  by_cases hn : n = 32
  · exact ⟨0x6969, if_pos hn⟩
  · exact ⟨0, if_neg hn⟩

/-- The words that stand in the fields of a shifted frame. -/
def Shifted (cpu : Cpu) (event : Event) (code : UInt64) (below : Stack) : Prop :=
  cpu.rip = cpu.cs ∧ cpu.cs = cpu.rflags ∧ cpu.rflags = cpu.rsp ∧ cpu.rsp = cpu.ss ∧
    cpu.ss = if event.HasErrorCode then code else below.getD 0 0

/-- The interrupted state survives exactly when the stub is right about the error
code, or when no shift can be seen because all the words involved are equal. -/
theorem preserved_iff_expects (cpu : Cpu) (event : Event) (code : UInt64) (below : Stack)
    (left : Reg → UInt64) :
    Preserved cpu event code below left ↔
      (event.HasErrorCode ↔ ExpectsErrorCode event.vector) ∨ Shifted cpu event code below := by
  rw [preserved_iff, Shifted]
  by_cases hcode : event.HasErrorCode <;> by_cases hstub : ExpectsErrorCode event.vector
  · rw [if_pos hcode, vectorHandler_expects hstub]
    exact iff_of_true rfl (Or.inl (iff_of_true hcode hstub))
  · obtain ⟨dummy, hvector⟩ := vectorHandler_dummy hstub
      (processorFrame cpu (some code) ++ below)
    rw [if_pos hcode, if_pos hcode, hvector, iff_false_right hstub, or_iff_right (not_not.mpr hcode)]
    constructor
    · intro h
      have hrip : code = cpu.rip := congrArg Cpu.rip h
      have hcs : cpu.rip = cpu.cs := congrArg Cpu.cs h
      have hrflags : cpu.cs = cpu.rflags := congrArg Cpu.rflags h
      have hrsp : cpu.rflags = cpu.rsp := congrArg Cpu.rsp h
      have hss : cpu.rsp = cpu.ss := congrArg Cpu.ss h
      exact ⟨hcs, hrflags, hrsp, hss, by rw [hrip, hcs, hrflags, hrsp, hss]⟩
    · rintro ⟨hcs, hrflags, hrsp, hss, hcode'⟩
      exact Cpu.ext rfl (by rw [hcs, hrflags, hrsp, hss, hcode']; rfl) hcs hrflags hrsp hss
  · rw [if_neg hcode, if_neg hcode, vectorHandler_expects hstub, iff_true_right hstub,
      or_iff_right hcode]
    constructor
    · intro h
      have hrip : cpu.cs = cpu.rip := congrArg Cpu.rip h
      have hcs : cpu.rflags = cpu.cs := congrArg Cpu.cs h
      have hrflags : cpu.rsp = cpu.rflags := congrArg Cpu.rflags h
      have hrsp : cpu.ss = cpu.rsp := congrArg Cpu.rsp h
      have hss : below.getD 0 0 = cpu.ss := congrArg Cpu.ss h
      exact ⟨hrip.symm, hcs.symm, hrflags.symm, hrsp.symm, hss.symm⟩
    · rintro ⟨hcs, hrflags, hrsp, hss, hbelow⟩
      exact Cpu.ext rfl hcs.symm hrflags.symm hrsp.symm hss.symm hbelow.symm
  · obtain ⟨dummy, hvector⟩ := vectorHandler_dummy hstub (processorFrame cpu none ++ below)
    rw [if_neg hcode, hvector]
    exact iff_of_true rfl (Or.inl (iff_of_false hcode hstub))

/-- The kernel with interrupts on, and one word on its stack. -/
def sampleCpu : Cpu where
  regs := fun _ => 0
  rip := 0xFFFFFFFF80001000
  cs := 0x8
  rflags := 0x202
  rsp := 0xFFFFFFFF80040000
  ss := 0x10

/-- Vector 8 is the timer of an 8259 that was not remapped. No error code comes with it, and
stub 8 counts on one. -/
theorem timer_not_preserved :
    ¬ Preserved sampleCpu (.interrupt 8) 0 [0xFFFFFFFF80002000] (fun _ => 0) := by
  intro h
  have hrip := congrArg Cpu.rip h.restored
  exact absurd hrip (by decide)

end PaskakasaOS.Kernel.Interrupts.EntryExit
