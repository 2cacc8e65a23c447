import PaskakasaOS.Kernel.Interrupts.Idt

/-!
# From an event to the `switch` of the handler

The processor goes through the gate of the vector, aligns the stack and pushes
its frame; the stub at the gate's address and `interrupt_stub` push the rest. The
handler sees the decimal digits of the vector as hexadecimal ones, which is what
the cases of its `switch` are written for.
-/
namespace PaskakasaOS.Kernel.Interrupts.Delivery

open Lib.ByteMemory Stub EntryExit Idt Handler Scheduler

/-- The machine at `call interrupt_general_handler`. -/
structure Arrival where
  stack : Stack
  rsp : Nat
  selector : Nat
  interruptFlag : Bool

/-- Delivery of an event through the table that `idtr` describes, the stubs beginning
at `start`; `none` is a further exception. An interrupt gate clears the interrupt
flag, a trap gate leaves it, and both find the stack pointer rounded down to 16. -/
def deliver (m : Memory) (idtr : Idtr) (start : Nat) (cpu : Cpu) (event : Event) (code : UInt64)
    (below : Stack) : Option Arrival :=
  match gateOf m idtr event.vector with
  | none => none
  | some gate =>
    if gate.present ∧ (gate.type = 0xE ∨ gate.type = 0xF) then
      match stubAt start gate.offset with
      | none => none
      | some text =>
        let pushed := processorFrame cpu (if event.HasErrorCode then some code else none)
        let stack := stubEntry cpu.regs (text.foldl Instr.exec (pushed ++ below))
        let words := stack.length - below.length
        some
          { stack := stack
            rsp := (cpu.rsp.toNat / 16 * 16 + 2 ^ 64 - 8 * words) % 2 ^ 64
            selector := gate.selector
            interruptFlag := gate.type = 0xF ∧ cpu.rflags.toNat / 2 ^ 9 % 2 = 1 }
    else none

/-! ## The stack at the call -/

theorem stubEntry_length (regs : Reg → UInt64) (st : Stack) :
    (stubEntry regs st).length = st.length + 15 := rfl

theorem vectorHandler_length (n : Nat) (st : Stack) :
    (vectorHandler n st).length = st.length + if ExpectsErrorCode n then 1 else 2 := by
  by_cases h : ExpectsErrorCode n
  · rw [vectorHandler_expects h, if_pos h, List.length_cons]
  · obtain ⟨dummy, hdummy⟩ := vectorHandler_dummy h st
    rw [hdummy, if_neg h, List.length_cons, List.length_cons]

theorem frame_length (cpu : Cpu) (event : Event) (code : UInt64) (below : Stack) :
    (frame cpu event code below).length = below.length + 15 +
      (if ExpectsErrorCode event.vector then 1 else 2) + if event.HasErrorCode then 6 else 5 := by
  rw [frame, stubEntry_length, vectorHandler_length, List.length_append]
  by_cases hcode : event.HasErrorCode
  · rw [if_pos hcode, if_pos hcode]
    show 6 + below.length + _ + 15 = _
    omega
  · rw [if_neg hcode, if_neg hcode]
    show 5 + below.length + _ + 15 = _
    omega

/-- Whatever lies below, the frame has the vector where `vector_number` is read. -/
theorem vectorNumber_frame (cpu : Cpu) (event : Event) (code : UInt64) (below : Stack) :
    (CpuStatus.ofWords (frame cpu event code below)).vectorNumber = dollar event.vector := by
  have hread : ∀ st, (CpuStatus.ofWords (stubEntry cpu.regs st)).vectorNumber = st.getD 0 0 :=
    fun _ => rfl
  rw [frame, hread]
  by_cases h : ExpectsErrorCode event.vector
  · rw [vectorHandler_expects h]
    rfl
  · obtain ⟨dummy, hdummy⟩ := vectorHandler_dummy h
      (processorFrame cpu (if event.HasErrorCode then some code else none) ++ below)
    rw [hdummy]
    rfl

/-! ## The cases of the `switch` -/

theorem vector_lt (event : Event) : event.vector < 256 := by
  cases event with
  | exception n => exact Nat.lt_trans n.isLt (by decide)
  | interrupt n => exact n.isLt

theorem dollar_toNat {n : Nat} (hn : n < 256) :
    (dollar n).toNat = n / 100 * 0x100 + n / 10 % 10 * 0x10 + n % 10 := by
  rw [dollar, UInt64.toNat_ofNat']
  exact Nat.mod_eq_of_lt (by omega)

/-- The hexadecimal cases stand for the decimal vectors. -/
theorem switches_dollar_iff {n : Nat} (hn : n < 256) :
    Switches (dollar n) ↔ n = 8 ∨ n = 20 ∨ n = 32 := by
  have hvalue := dollar_toNat hn
  rw [Switches, ← UInt64.toNat_inj, ← UInt64.toNat_inj, ← UInt64.toNat_inj, hvalue]
  show _ = 0x8 ∨ _ = 0x20 ∨ _ = 0x32 ↔ _
  omega

theorem dollar_eq_pageFault_iff {n : Nat} (hn : n < 256) : dollar n = 0x14 ↔ n = 14 := by
  have hvalue := dollar_toNat hn
  rw [← UInt64.toNat_inj, hvalue]
  show _ = 0x14 ↔ _
  omega

/-- What the handler makes of each vector: the next process, the final `hlt`, or a
return to the interrupted code. -/
def dispatched (sched : Sched) (n : Nat) : Option Returned :=
  if n = 8 ∨ n = 20 ∨ n = 32 then some (.process (schedule sched))
  else if n = 14 then none
  else some .context

theorem interruptGeneralHandler_frame (g : Globals) (cpu : Cpu) (event : Event) (code : UInt64)
    (below : Stack) :
    let context := CpuStatus.ofWords (frame cpu event code below)
    (interruptGeneralHandler g context).map Prod.fst =
      dispatched (saveContext g.sched context) event.vector := by
  have hn := vector_lt event
  simp only [interruptGeneralHandler, dispatched, vectorNumber_frame, switches_dollar_iff hn,
    dollar_eq_pageFault_iff hn]
  split
  · rfl
  · split <;> rfl

/-! ## The whole way -/

/-- The handler is called with interrupts off, on the frame of the event, and takes the
branch of its vector; the stack has the alignment that the calling convention asks
for exactly when the stub is right about the error code. -/
structure Handled (g : Globals) (cpu : Cpu) (event : Event) (code : UInt64) (below : Stack)
    (arrival : Arrival) : Prop where
  stack : arrival.stack = frame cpu event code below
  selector : arrival.selector = 8
  interruptFlag : arrival.interruptFlag = false
  aligned : arrival.rsp % 16 = 0 ↔ (event.HasErrorCode ↔ ExpectsErrorCode event.vector)
  dispatch : (interruptGeneralHandler g (CpuStatus.ofWords arrival.stack)).map Prod.fst =
    dispatched (saveContext g.sched (CpuStatus.ofWords arrival.stack)) event.vector

theorem aligned_iff (rsp : UInt64) (below expects has : Nat) (hexpects : expects = 1 ∨ expects = 2)
    (hhas : has = 6 ∨ has = 5) :
    (rsp.toNat / 16 * 16 + 2 ^ 64 - 8 * (below + 15 + expects + has - below)) % 2 ^ 64 % 16 = 0 ↔
      expects + has = 7 := by
  omega

/-- Every exception and every interrupt reaches the handler through the table that
`setup_interrupts` builds. -/
theorem deliver_setupInterrupts (m : Memory) {idt start : Nat} (hidt : idt + 4096 ≤ 2 ^ 64)
    (htext : align start + 4096 ≤ 2 ^ 64) (g : Globals) (cpu : Cpu) (event : Event) (code : UInt64)
    (below : Stack) :
    ∃ arrival,
      deliver (setupInterrupts m idt (UInt64.ofNat (vectorHandlerAddress start 0))).1
        (setupInterrupts m idt (UInt64.ofNat (vectorHandlerAddress start 0))).2 start cpu event code
        below = some arrival ∧ Handled g cpu event code below arrival := by
  have hn := vector_lt event
  have hgate := (setupInterrupts_installed m hidt htext).gate event.vector
  rw [if_pos hn] at hgate
  have hstack : stubEntry cpu.regs ((stub event.vector).foldl Instr.exec
      (processorFrame cpu (if event.HasErrorCode then some code else none) ++ below)) =
      frame cpu event code below := by
    rw [exec_stub, frame]
  rw [deliver, hgate]
  simp only [kernelGate, stubAt_handler start hn, hstack]
  rw [if_pos ⟨trivial, Or.inl trivial⟩]
  refine ⟨_, rfl, rfl, rfl, rfl, ?_, interruptGeneralHandler_frame g cpu event code below⟩
  rw [frame_length]
  by_cases hexpects : ExpectsErrorCode event.vector <;> by_cases hcode : event.HasErrorCode
  · rw [if_pos hexpects, if_pos hcode, aligned_iff cpu.rsp below.length 1 6 (by decide) (by decide)]
    exact iff_of_true rfl (iff_of_true hcode hexpects)
  · rw [if_pos hexpects, if_neg hcode, aligned_iff cpu.rsp below.length 1 5 (by decide) (by decide)]
    exact iff_of_false (by decide) fun h => hcode (h.mpr hexpects)
  · rw [if_neg hexpects, if_pos hcode, aligned_iff cpu.rsp below.length 2 6 (by decide) (by decide)]
    exact iff_of_false (by decide) fun h => hexpects (h.mp hcode)
  · rw [if_neg hexpects, if_neg hcode, aligned_iff cpu.rsp below.length 2 5 (by decide) (by decide)]
    exact iff_of_true rfl (iff_of_false hcode hexpects)

/-- The boot thread with an empty process table. -/
def sampleGlobals : Globals where
  sched := { processes := fun _ => ⟨.READY, CpuStatus.ofWords []⟩, counter := Fin.last 3 }
  val := 1
  eoi := 0

/-- A timer interrupt on a stack that is not aligned. -/
theorem deliver_setupInterrupts_timer :
    ∃ arrival,
      deliver (setupInterrupts (fun _ => 0) 0xFFFFFFFF80010000
          (UInt64.ofNat (vectorHandlerAddress 0xFFFFFFFF80003005 0))).1
        (setupInterrupts (fun _ => 0) 0xFFFFFFFF80010000
          (UInt64.ofNat (vectorHandlerAddress 0xFFFFFFFF80003005 0))).2
        0xFFFFFFFF80003005 { sampleCpu with rsp := 0xFFFFFFFF80040008 } (.interrupt 32) 0 [] =
          some arrival ∧
        Handled sampleGlobals { sampleCpu with rsp := 0xFFFFFFFF80040008 } (.interrupt 32) 0 []
          arrival :=
  deliver_setupInterrupts (fun _ => 0) (by decide) (by decide) sampleGlobals _ _ _ _

end PaskakasaOS.Kernel.Interrupts.Delivery
