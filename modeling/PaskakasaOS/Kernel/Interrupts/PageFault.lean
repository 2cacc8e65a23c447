import PaskakasaOS.Lib.Runs
import PaskakasaOS.Kernel.Interrupts.Stub
import PaskakasaOS.Kernel.Memory.AddressSpace
import PaskakasaOS.Kernel.Utils.TerminalContents

/-!
# `page_fault_handler` of `kernel/interrupts/interrupts.c`

The handler maps a page when bit 0 of the error code is set. The processor sets that bit when
the page was present, and then `map_page` finds it present as well.
-/
namespace PaskakasaOS.Kernel.Interrupts.PageFault

open Lib.Runs Stub
open Memory.Vmm
open Utils.TextTerminal

/-! ## `map_page` on a page that is mapped -/

section Present

variable {s : Vm} {table i t v p : Nat}

end Present

/-! ## The handler -/

/-- What the handler works on; `halted` is the `HLT`, which no interrupt ends. -/
structure Machine where
  vm : Vm
  console : Console
  halted : Bool

def printHex (t : Console) (hex : UInt64) : Console :=
  print (printcount (print t [0x30, 0x78]) (itoa hex 16)) [0xa]

/-- The `print` calls before the handler decides. -/
def report (t : Console) (context : CpuStatus) (cr2 : UInt64) : Console :=
  let t := print t [0x50, 0x41, 0x47, 0x45, 0x46, 0x41, 0x55, 0x4c, 0x54, 0xa]
  let t := print t [0x52, 0x53, 0x50, 0x3a, 0x20, 0x20]
  let t := printHex t context.iretRsp
  let t := print t [0x52, 0x49, 0x50, 0x3a, 0x20, 0x20]
  let t := printHex t context.iretRip
  let t := print t [0x45, 0x52, 0x52, 0x52, 0x4f, 0x52, 0x20, 0x43, 0x4f, 0x44, 0x45, 0x3a, 0x20]
  let t := printHex t context.errorCode
  let t := print t [0x43, 0x52, 0x32, 0x3a, 0x20]
  printHex t cr2

def pageFaultHandler (s : Machine) (context : CpuStatus) (cr2 : UInt64) : Option Machine := do
  let t := report s.console context cr2
  if context.errorCode &&& ((1 : UInt64) <<< 0) ≠ 0 then
    let t := print t [0x4d, 0x61, 0x70, 0x70, 0x69, 0x6e, 0x67, 0x20, 0x63, 0x72, 0x33, 0xa]
    let vm ← mapPage s.vm cr2.toNat cr2.toNat
    some { s with vm := vm, console := t }
  else
    let t := print t
      [0x48, 0x61, 0x6c, 0x74, 0x69, 0x6e, 0x67, 0x20, 0x73, 0x79, 0x73, 0x74, 0x65, 0x6d, 0xa]
    some { s with console := t, halted := true }

/-! ## Faults one after the other -/

structure Fault where
  context : CpuStatus
  cr2 : UInt64

/-- A halted machine takes no further fault. -/
def step (s : Machine) (f : Fault) : Option Machine :=
  if s.halted then some s else pageFaultHandler s f.context f.cr2

end PaskakasaOS.Kernel.Interrupts.PageFault
