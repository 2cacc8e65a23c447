import Mathlib.Logic.Function.Basic

/-!
# Interrupt entry and exit

The processor, the vector stub and `interrupt_stub` push the interrupted state
word by word; `cpu_status_t` reads the same words by position. On the way out
the words at the address the handler returned are popped in the opposite order.
-/
namespace PaskakasaOS.Kernel.Interrupts.Stub

/-- The general-purpose registers other than `rsp`. -/
inductive Reg where
  | rax | rbx | rcx | rdx | rsi | rdi | rbp | r8 | r9 | r10 | r11 | r12 | r13 | r14 | r15
  deriving DecidableEq

/-- What a process can see of the processor. -/
@[ext]
structure Cpu where
  regs : Reg → UInt64
  rip : UInt64
  cs : UInt64
  rflags : UInt64
  rsp : UInt64
  ss : UInt64

/-- `cpu_status_t`. -/
structure CpuStatus where
  r15 : UInt64
  r14 : UInt64
  r13 : UInt64
  r12 : UInt64
  r11 : UInt64
  r10 : UInt64
  r9 : UInt64
  r8 : UInt64
  rbp : UInt64
  rdi : UInt64
  rsi : UInt64
  rdx : UInt64
  rcx : UInt64
  rbx : UInt64
  rax : UInt64
  vectorNumber : UInt64
  errorCode : UInt64
  iretRip : UInt64
  iretCs : UInt64
  iretFlags : UInt64
  iretRsp : UInt64
  iretSs : UInt64

/-- The words from the stack pointer upwards, lowest address first. -/
abbrev Stack := List UInt64

/-- The words a `cpu_status_t` occupies. -/
def CpuStatus.words (c : CpuStatus) : Stack :=
  [c.r15, c.r14, c.r13, c.r12, c.r11, c.r10, c.r9, c.r8, c.rbp, c.rdi, c.rsi, c.rdx, c.rcx, c.rbx,
    c.rax, c.vectorNumber, c.errorCode, c.iretRip, c.iretCs, c.iretFlags, c.iretRsp, c.iretSs]

/-- The `cpu_status_t` at the top of a stack of at least 22 words. -/
def CpuStatus.ofWords (st : Stack) : CpuStatus where
  r15 := st.getD 0 0
  r14 := st.getD 1 0
  r13 := st.getD 2 0
  r12 := st.getD 3 0
  r11 := st.getD 4 0
  r10 := st.getD 5 0
  r9 := st.getD 6 0
  r8 := st.getD 7 0
  rbp := st.getD 8 0
  rdi := st.getD 9 0
  rsi := st.getD 10 0
  rdx := st.getD 11 0
  rcx := st.getD 12 0
  rbx := st.getD 13 0
  rax := st.getD 14 0
  vectorNumber := st.getD 15 0
  errorCode := st.getD 16 0
  iretRip := st.getD 17 0
  iretCs := st.getD 18 0
  iretFlags := st.getD 19 0
  iretRsp := st.getD 20 0
  iretSs := st.getD 21 0

/-- The processor state a `cpu_status_t` describes. -/
def CpuStatus.cpu (c : CpuStatus) : Cpu where
  regs
    | .rax => c.rax
    | .rbx => c.rbx
    | .rcx => c.rcx
    | .rdx => c.rdx
    | .rsi => c.rsi
    | .rdi => c.rdi
    | .rbp => c.rbp
    | .r8 => c.r8
    | .r9 => c.r9
    | .r10 => c.r10
    | .r11 => c.r11
    | .r12 => c.r12
    | .r13 => c.r13
    | .r14 => c.r14
    | .r15 => c.r15
  rip := c.iretRip
  cs := c.iretCs
  rflags := c.iretFlags
  rsp := c.iretRsp
  ss := c.iretSs

/-! ## Entry -/

/-- The processor pushes the state `iretq` restores, and an error code for some exceptions. -/
def processorFrame (cpu : Cpu) (errorCode : Option UInt64) : Stack :=
  errorCode.toList ++ [cpu.rip, cpu.cs, cpu.rflags, cpu.rsp, cpu.ss]

/-- `$n` is a hexadecimal number to the assembler, so the decimal digits of a
vector are pushed as hexadecimal ones. -/
def dollar (n : Nat) : UInt64 := UInt64.ofNat (n / 100 * 0x100 + n / 10 % 10 * 0x10 + n % 10)

/-- `vector_n_handler`. -/
def vectorHandler (n : Nat) (st : Stack) : Stack :=
  if n = 8 ∨ (10 ≤ n ∧ n ≤ 14) then dollar n :: st
  else if n = 32 then dollar n :: 0x6969 :: st
  else dollar n :: 0 :: st

/-- The `push` instructions of `interrupt_stub`, in order. -/
def pushes : List Reg :=
  [.rax, .rbx, .rcx, .rdx, .rsi, .rdi, .rbp, .r8, .r9, .r10, .r11, .r12, .r13, .r14, .r15]

/-- The `pop` instructions of `interrupt_stub`, in order. -/
def pops : List Reg :=
  [.r15, .r14, .r13, .r12, .r11, .r10, .r9, .r8, .rbp, .rdi, .rsi, .rdx, .rcx, .rbx, .rax]

/-- The stack at `call interrupt_general_handler`. -/
def stubEntry (regs : Reg → UInt64) (st : Stack) : Stack := pushes.foldl (fun st r => regs r :: st) st

/-! ## Exit -/

/-- One `pop`. -/
def pop (s : (Reg → UInt64) × Stack) (r : Reg) : (Reg → UInt64) × Stack :=
  (Function.update s.1 r (s.2.getD 0 0), s.2.tail)

/-- `interrupt_stub` from `mov rsp, rax` on, up to and including `iretq`; `left` is
what the handler leaves in the registers. -/
def stubExit (left : Reg → UInt64) (st : Stack) : Cpu :=
  let (regs, st) := pops.foldl pop (left, st)
  -- the vector number and the error code
  let st := st.drop 2
  { regs := regs, rip := st.getD 0 0, cs := st.getD 1 0, rflags := st.getD 2 0, rsp := st.getD 3 0,
    ss := st.getD 4 0 }

/-! ## Round trips -/

/-- The exit path restores the state the popped `cpu_status_t` describes. -/
theorem stubExit_words (left : Reg → UInt64) (c : CpuStatus) : stubExit left c.words = c.cpu := by
  refine Cpu.ext ?_ rfl rfl rfl rfl rfl
  funext r
  cases r <;> rfl

/-- Where the stub pushes the vector and one more word, the frame describes the
interrupted state. -/
theorem cpu_ofWords_entry (cpu : Cpu) (vector error : UInt64) :
    (CpuStatus.ofWords (stubEntry cpu.regs (vector :: error :: processorFrame cpu none))).cpu = cpu := by
  refine Cpu.ext ?_ rfl rfl rfl rfl rfl
  funext r
  cases r <;> rfl

/-- Whatever the vector, the frame has its number where `vector_number` is read. -/
theorem vectorNumber_entry (cpu : Cpu) (n : Nat) (errorCode : Option UInt64) :
    (CpuStatus.ofWords (stubEntry cpu.regs (vectorHandler n (processorFrame cpu errorCode)))).vectorNumber =
      dollar n := by
  rw [vectorHandler]
  split
  · rfl
  · split <;> rfl

end PaskakasaOS.Kernel.Interrupts.Stub
