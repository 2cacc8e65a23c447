import PaskakasaOS.Kernel.Interrupts.Stub
import PaskakasaOS.Kernel.Memory.HeapRuns

/-!
# The process table of `kernel/scheduler.c`

Slot 0 is the thread that booted; `init_scheduler` prepares the three others.
-/
namespace PaskakasaOS.Kernel.Scheduler

open Lib.ByteMemory
open Interrupts.Stub
open Memory.Alloc Memory.HeapList Memory.HeapRuns

inductive Status where
  | READY | RUNNING | DEAD
  deriving DecidableEq

/-- `process_t`. -/
structure Process where
  processStatus : Status
  context : CpuStatus

/-- The globals `processes` and `counter`. -/
structure Sched where
  processes : Fin 4 → Process
  counter : Fin 4

/-- `int counter=0;` -/
def initialCounter : Fin 4 := 0

/-- The addresses of the three process functions. -/
structure Entries where
  processA : UInt64
  processB : UInt64
  processC : UInt64

def allocStack (h : Heap) : Option (UInt64 × Heap) := do
  let (allocation, h) ← kalloc h 0x4000
  some (UInt64.ofNat (allocation + 0x4000), h)

/-- The assignments `init_scheduler` makes to one slot. -/
def initProcess (p : Process) (stack entry : UInt64) : Process where
  processStatus := .READY
  context := { p.context with
    rbp := 0, iretSs := 0x10, iretRsp := stack, iretFlags := 0x202, iretCs := 0x8, iretRip := entry,
    rdi := 0 }

def initScheduler (entries : Entries) (h : Heap) (processes : Fin 4 → Process) :
    Option ((Fin 4 → Process) × Heap) := do
  let (stack, h) ← allocStack h
  let processes := Function.update processes 3 (initProcess (processes 3) stack entries.processC)
  let (stack, h) ← allocStack h
  let processes := Function.update processes 1 (initProcess (processes 1) stack entries.processA)
  let (stack, h) ← allocStack h
  let processes := Function.update processes 2 (initProcess (processes 2) stack entries.processB)
  some (processes, h)

/-- The fields `save_context` copies. -/
def copyContext (saved current : CpuStatus) : CpuStatus :=
  { saved with
    r15 := current.r15, r14 := current.r14, r13 := current.r13, r12 := current.r12,
    r11 := current.r11, r10 := current.r10, r9 := current.r9, r8 := current.r8,
    rbp := current.rbp, rdi := current.rdi, rsi := current.rsi, rdx := current.rdx,
    rcx := current.rcx, rax := current.rax,
    iretRip := current.iretRip, iretCs := current.iretCs, iretFlags := current.iretFlags,
    iretRsp := current.iretRsp, iretSs := current.iretSs }

def saveContext (s : Sched) (current : CpuStatus) : Sched where
  processes := Function.update s.processes s.counter
    { processStatus := .READY, context := copyContext (s.processes s.counter).context current }
  counter := if s.counter = 3 then 0 else s.counter + 1

/-- The slot whose context `schedule` points to. -/
def schedule (s : Sched) : Fin 4 := s.counter

/-! ## What the operations do -/

/-- `init_scheduler` leaves the `rbx` of every slot as it was. -/
theorem initScheduler_rbx {entries : Entries} {h h' : Heap} {processes table : Fin 4 → Process}
    (hinit : initScheduler entries h processes = some (table, h')) :
    ∀ p, (table p).context.rbx = (processes p).context.rbx := by
  simp only [initScheduler, Option.bind_eq_bind, Option.bind_eq_some_iff, Option.some.injEq,
    Prod.mk.injEq] at hinit
  obtain ⟨⟨s3, h3⟩, _, ⟨s1, h1⟩, _, ⟨s2, h2⟩, _, rfl, _⟩ := hinit
  intro p
  match p with
  | 0 => rfl
  | 1 => rfl
  | 2 => rfl
  | 3 => rfl

/-- A stack comes out of any well-formed heap with room for it. -/
theorem allocStack_spec {h : Heap} {used : List Nat} {free : Nat} (hl : Listed h used free)
    (hroom : 0x4000 < free) :
    ∃ stack h', allocStack h = some (stack, h') ∧ Listed h' (used ++ [0x4000]) (free - 0x4000) := by
  have hn : toU64 0x4000 = 0x4000 := by decide
  have hsplit := hl.split (n := 0x4000) (by rw [hn]; decide) (by rw [hn]; exact hroom)
  rw [hn] at hsplit
  have hk := hl.chained.kalloc 0x4000
  rw [hn, if_pos hroom] at hk
  exact ⟨_, _, by rw [allocStack, hk]; rfl, hsplit⟩

/-- On the fresh heap `init_scheduler` gets its three stacks. -/
theorem initScheduler_installHeap (entries : Entries) (image : Image) (m : Memory)
    (processes : Fin 4 → Process) :
    ∃ table h, initScheduler entries (installHeap image m) processes = some (table, h) := by
  obtain ⟨s3, h3, e3, l3⟩ := allocStack_spec (listed_installHeap image m) (by decide)
  obtain ⟨s1, h1, e1, l1⟩ := allocStack_spec l3 (by decide)
  obtain ⟨s2, h2, e2, _⟩ := allocStack_spec l1 (by decide)
  simp only [initScheduler, e3, e1, e2, Option.bind_eq_bind, Option.bind_some]
  exact ⟨_, _, rfl⟩

theorem saveContext_counter (s : Sched) (current : CpuStatus) :
    (saveContext s current).counter = s.counter + 1 := by
  have hwrap : ∀ c : Fin 4, (if c = 3 then 0 else c + 1) = c + 1 := by decide
  exact hwrap s.counter

theorem saveContext_other (s : Sched) (current : CpuStatus) {p : Fin 4} (hp : p ≠ s.counter) :
    (saveContext s current).processes p = s.processes p :=
  Function.update_of_ne hp _ _

theorem saveContext_own (s : Sched) (current : CpuStatus) :
    ((saveContext s current).processes s.counter).context =
      copyContext (s.processes s.counter).context current := by
  show (Function.update s.processes s.counter _ s.counter).context = _
  rw [Function.update_self]

end PaskakasaOS.Kernel.Scheduler
