import PaskakasaOS.Kernel.Scheduler

/-!
# `interrupt_general_handler` of `kernel/interrupts/interrupts.c`
-/
namespace PaskakasaOS.Kernel.Interrupts.Handler

open Stub Scheduler

/-- The scheduler, the tick counter `val` and the number of writes to the EOI register. -/
structure Globals where
  sched : Sched
  val : Int32
  eoi : Nat

/-- The `cpu_status_t` the handler returns: the frame it got, or a slot of the process table. -/
inductive Returned where
  | context
  | process (p : Fin 4)
  deriving DecidableEq

/-- The cases of the `switch` that return another context. -/
def Switches (vectorNumber : UInt64) : Prop :=
  vectorNumber = 0x8 ∨ vectorNumber = 0x20 ∨ vectorNumber = 0x32

instance (v : UInt64) : Decidable (Switches v) := inferInstanceAs (Decidable (_ ∨ _ ∨ _))

/-- `none` is the `hlt` of case `0x14`, which no interrupt ends: the flag is clear. -/
def interruptGeneralHandler (g : Globals) (context : CpuStatus) : Option (Returned × Globals) :=
  let sched := saveContext g.sched context
  if Switches context.vectorNumber then
    some (.process (schedule sched), { sched := sched, val := g.val + 1, eoi := g.eoi + 1 })
  else if context.vectorNumber = 0x14 then none
  else some (.context, { g with sched := sched })

end PaskakasaOS.Kernel.Interrupts.Handler
