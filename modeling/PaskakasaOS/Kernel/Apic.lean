import PaskakasaOS.Kernel.Memory.InitPaging
import PaskakasaOS.Kernel.Interrupts.Delivery

/-!
# `kernel/apic.c`

`init_apic` takes the two 8259 controllers through their initialisation and masks them,
then starts the timer of the local APIC. It maps the address that the firmware has given
for the local APIC, but the stores to its registers go to `APIC_BASE_ADDRESS`.
-/
namespace PaskakasaOS.Kernel.Apic

open Lib.ByteMemory Lib.TableTree
open Memory.Pmm Memory.Vmm Memory.VmmTree Memory.MapPage Memory.AddressSpace Memory.InitPaging
open Interrupts.Handler Interrupts.Delivery Scheduler

/-! ## The interrupt controllers -/

def PIC1 : UInt16 := 0x20
def PIC2 : UInt16 := 0xA0
def PIC1_COMMAND : UInt16 := PIC1
def PIC1_DATA : UInt16 := PIC1 + 1
def PIC2_COMMAND : UInt16 := PIC2
def PIC2_DATA : UInt16 := PIC2 + 1
def ICW_1 : UInt8 := 0x11
def ICW_2_M : UInt8 := 0x20
def ICW_2_S : UInt8 := 0x28
def ICW_3_M : UInt8 := 0x2
def ICW_3_S : UInt8 := 0x4
def ICW_4 : UInt8 := 0x01

/-- What a controller takes the next byte on its data port for. -/
inductive Expects where
  | icw2
  | icw3
  | icw4
  | mask
  deriving DecidableEq

/-- An 8259; `needsIcw4` and `single` are what its last `ICW1` said. -/
structure Pic where
  expects : Expects
  needsIcw4 : Bool
  single : Bool
  vectors : UInt8
  cascade : UInt8
  mode : UInt8
  mask : UInt8

/-- A byte on the command port begins the initialisation when bit 4 is set. -/
def Pic.command (p : Pic) (w : UInt8) : Pic :=
  if w &&& 0x10 = 0 then p
  else { p with expects := .icw2, needsIcw4 := w &&& 1 ≠ 0, single := w &&& 2 ≠ 0, mask := 0 }

def Pic.data (p : Pic) (w : UInt8) : Pic :=
  let last := if p.needsIcw4 then Expects.icw4 else .mask
  match p.expects with
  | .icw2 => { p with vectors := w &&& 0xF8, expects := if p.single then last else .icw3 }
  | .icw3 => { p with cascade := w, expects := last }
  | .icw4 => { p with mode := w, expects := .mask }
  | .mask => { p with mask := w }

inductive Controller where
  | master
  | slave
  deriving DecidableEq

abbrev Pics := Controller → Pic

/-- `outb`, as far as it reaches the controllers. -/
def outb (pics : Pics) (port : UInt16) (w : UInt8) : Pics :=
  if port = PIC1_COMMAND then Function.update pics .master ((pics .master).command w)
  else if port = PIC1_DATA then Function.update pics .master ((pics .master).data w)
  else if port = PIC2_COMMAND then Function.update pics .slave ((pics .slave).command w)
  else if port = PIC2_DATA then Function.update pics .slave ((pics .slave).data w)
  else pics

/-- The ten `outb` of `init_apic`. -/
def disablePic (pics : Pics) : Pics :=
  [(PIC1_COMMAND, ICW_1), (PIC2_COMMAND, ICW_1), (PIC1_DATA, ICW_2_M), (PIC2_DATA, ICW_2_S),
    (PIC1_DATA, ICW_3_M), (PIC2_DATA, ICW_3_S), (PIC1_DATA, ICW_4), (PIC2_DATA, ICW_4),
    (PIC1_DATA, 0xFF), (PIC2_DATA, 0xFF)].foldl (fun pics w => outb pics w.1 w.2) pics

/-- Out of its initialisation with all lines masked. -/
def masked (vectors cascade : UInt8) : Pic where
  expects := .mask
  needsIcw4 := true
  single := false
  vectors := vectors
  cascade := cascade
  mode := 0x01
  mask := 0xFF

/-- Wherever the controllers were in their initialisation, they get through it. -/
theorem disablePic_masked (pics : Pics) :
    disablePic pics .master = masked 0x20 0x2 ∧ disablePic pics .slave = masked 0x28 0x4 := by
  have hbegin : ∀ p : Pic, p.command ICW_1 =
      { p with expects := .icw2, needsIcw4 := true, single := false, mask := 0 } := fun _ => rfl
  constructor
  · show ((((((pics .master).command ICW_1).data ICW_2_M).data ICW_3_M).data ICW_4).data 0xFF) = _
    rw [hbegin]
    rfl
  · show ((((((pics .slave).command ICW_1).data ICW_2_S).data ICW_3_S).data ICW_4).data 0xFF) = _
    rw [hbegin]
    rfl

/-! ## The local APIC -/

def APIC_BASE_ADDRESS : Nat := 0xFEE00000
def APIC_BASE_ENABLE : UInt64 := (1 : UInt64) <<< 11
def APIC_SVR : Nat := 0xF0
def APIC_LVT_TIMER : Nat := 0x320
def APIC_TIMER_INIT_COUNT : Nat := 0x380
def APIC_TIMER_DIV : Nat := 0x3E0

/-- The address space, `IA32_APIC_BASE` and what it places in the physical one. -/
structure Machine where
  pics : Pics
  vm : Vm
  apicBase : UInt64
  registers : Nat → UInt32
  interruptFlag : Bool

/-- `wrmsr` from the halves in `edx` and `eax`. The bits below 12 other than 8, for the
bootstrap processor, and 11 are reserved; setting one is a general protection fault. Bit 10 is
among them: the processor has no x2APIC. -/
def wrmsr (M : Machine) (low high : UInt32) : Option Machine :=
  let value := high.toUInt64 <<< 32 ||| low.toUInt64
  if value &&& 0x6FF = 0 then some { M with apicBase := value } else none

/-- `write_msr` of `IA32_APIC_BASE_MSR`. -/
def writeMsr (M : Machine) (value : UInt64) : Option Machine :=
  wrmsr M value.toUInt32 (value >>> 32).toUInt32

/-- A four-byte store at `APIC_BASE_ADDRESS + offset`. It is one to a register when it ends in
the page that `IA32_APIC_BASE` names; `none` is the page fault. -/
def apicReg (M : Machine) (offset : Nat) (value : UInt32) : Option Machine :=
  match physicalAddress M.vm.mem M.vm.pml (APIC_BASE_ADDRESS + offset) with
  | none => none
  | some p =>
    if M.apicBase &&& APIC_BASE_ENABLE ≠ 0 ∧ p / 4096 = M.apicBase.toNat / 4096 then
      some { M with registers := Function.update M.registers (p % 4096) value }
    else some { M with vm := { M.vm with mem := writeLE 4 M.vm.mem p value.toNat } }

/-- The end of `init_apic`: the stores to the registers and `sti`. -/
def startTimer (M : Machine) : Option Machine := do
  let M ← apicReg M APIC_SVR ((0xFF : UInt32) ||| (1 : UInt32) <<< 8)
  let M ← apicReg M APIC_TIMER_DIV 0x3
  let M ← apicReg M APIC_LVT_TIMER ((0x20 : UInt32) ||| (1 : UInt32) <<< 17)
  let M ← apicReg M APIC_TIMER_INIT_COUNT 10000
  some { M with interruptFlag := true }

/-- `init_apic`; its second argument and the value it reads back are not used. -/
def initApic (M : Machine) (a : UInt64) : Option Machine := do
  let vm ← mapPage M.vm a.toNat a.toNat
  let M ← writeMsr { M with pics := disablePic M.pics, vm := vm } (a ||| APIC_BASE_ENABLE)
  startTimer M

/-! ## What the timer does -/

/-- A periodic timer: its vector and the cycles of the bus clock from one interrupt to the next. -/
structure Timer where
  vector : Nat
  cycles : Nat

/-- What the divide configuration register stands for. -/
def divisor (config : UInt32) : Nat :=
  let n := config.toNat / 8 % 2 * 4 + config.toNat % 4
  if n = 7 then 1 else 2 ^ (n + 1)

/-- The timer when the local APIC is enabled and the timer is neither masked nor stopped. -/
def timer (registers : Nat → UInt32) : Option Timer :=
  let lvt := (registers APIC_LVT_TIMER).toNat
  if (registers APIC_SVR).toNat / 2 ^ 8 % 2 = 1 ∧ lvt / 2 ^ 16 % 2 = 0 ∧ lvt / 2 ^ 17 % 4 = 1 ∧
      registers APIC_TIMER_INIT_COUNT ≠ 0 then
    some
      { vector := lvt % 256
        cycles := (registers APIC_TIMER_INIT_COUNT).toNat * divisor (registers APIC_TIMER_DIV) }
  else none

/-- The machine behind `init_apic`: only the local APIC interrupts, its timer switches processes,
and of the address space only the page of `a` has changed. -/
structure Running (a : UInt32) (M M' : Machine) : Prop where
  master : M'.pics .master = masked 0x20 0x2
  slave : M'.pics .slave = masked 0x28 0x4
  apicBase : M'.apicBase = a.toUInt64 ||| APIC_BASE_ENABLE
  ticks : ∃ t, timer M'.registers = some t ∧ t.vector = 32 ∧ t.cycles = 160000 ∧
    ∀ sched, dispatched sched t.vector = some (.process (schedule sched))
  others : ∀ offset, offset ∉ [APIC_SVR, APIC_TIMER_DIV, APIC_LVT_TIMER, APIC_TIMER_INIT_COUNT] →
    M'.registers offset = M.registers offset
  mapped : ∀ v, v / 4096 = a.toNat / 4096 → physicalAddress M'.vm.mem M'.vm.pml v = some v
  kept : ∀ v, Canonical v → v / 4096 ≠ a.toNat / 4096 →
    physicalAddress M'.vm.mem M'.vm.pml v = physicalAddress M.vm.mem M.vm.pml v
  interruptFlag : M'.interruptFlag = true

theorem writeMsr_eq (M : Machine) (value : UInt64) :
    writeMsr M value = if value &&& 0x6FF = 0 then some { M with apicBase := value } else none := by
  have hhalves : (value >>> 32).toUInt32.toUInt64 <<< 32 ||| value.toUInt32.toUInt64 = value := by
    have hlt := value.toNat_lt
    apply UInt64.toNat_inj.mp
    rw [UInt64.toNat_or, UInt64.toNat_shiftLeft, UInt32.toNat_toUInt64, UInt32.toNat_toUInt64,
      UInt64.toNat_toUInt32, UInt64.toNat_toUInt32, UInt64.toNat_shiftRight]
    show ((value.toNat >>> 32) % 2 ^ 32) <<< 32 % 2 ^ 64 ||| value.toNat % 2 ^ 32 = _
    rw [Nat.shiftRight_eq_div_pow, Nat.mod_eq_of_lt (show value.toNat / 2 ^ 32 < 2 ^ 32 by omega),
      Nat.mod_eq_of_lt (by rw [Nat.shiftLeft_eq]; omega),
      ← Nat.shiftLeft_add_eq_or_of_lt (Nat.mod_lt _ (by decide)), Nat.shiftLeft_eq]
    omega
  rw [writeMsr, wrmsr, hhalves]

theorem reserved_enable (a : UInt32) :
    (a.toUInt64 ||| APIC_BASE_ENABLE) &&& 0x6FF = 0 ↔ a &&& 0x6FF = 0 := by
  have hapart : APIC_BASE_ENABLE.toNat &&& (0x6FF : UInt64).toNat = 0 := by decide
  have hmask : (0x6FF : UInt64).toNat = (0x6FF : UInt32).toNat := by decide
  rw [← UInt64.toNat_inj, ← UInt32.toNat_inj, UInt64.toNat_and, UInt64.toNat_or, UInt32.toNat_and,
    UInt32.toNat_toUInt64, Nat.and_or_distrib_right, hapart, Nat.or_zero, hmask, UInt64.toNat_zero,
    UInt32.toNat_zero]

theorem enabled_enable (a : UInt64) : (a ||| APIC_BASE_ENABLE) &&& APIC_BASE_ENABLE ≠ 0 := by
  intro hzero
  have hbit := congrArg (fun w => w.toNat.testBit 11) hzero
  rw [UInt64.toNat_and, UInt64.toNat_or, Nat.testBit_and, Nat.testBit_or] at hbit
  have hone : APIC_BASE_ENABLE.toNat.testBit 11 = true := by decide
  rw [hone, Bool.or_true] at hbit
  exact absurd hbit (by decide)

theorem page_enable (a : UInt32) :
    (a.toUInt64 ||| APIC_BASE_ENABLE).toNat / 4096 = a.toNat / 4096 := by
  rw [UInt64.toNat_or, UInt32.toNat_toUInt64]
  show (a.toNat ||| 2 ^ 11) / 2 ^ 12 = a.toNat / 2 ^ 12
  rw [Nat.or_div_two_pow]
  exact Nat.or_zero _

/-! ## The call of `map_page` -/

/-- What `init_apic` finds behind its call of `map_page`. -/
structure PageMapped (vm vm' : Vm) (a : Nat) : Prop where
  kept : ∀ v, Canonical v → v / 4096 ≠ a / 4096 →
    physicalAddress vm'.mem vm'.pml v = physicalAddress vm.mem vm.pml v
  mapped : walk vm.mem vm.pml a = none → ∀ v, v / 4096 = a / 4096 →
    physicalAddress vm'.mem vm'.pml v = some v

theorem mapPage_self {vm : Vm} {a : Nat} (hs : Reachable vm) (ha : a < 2 ^ 32)
    (hfree : tablesNeeded vm.mem vm.pml a ≤ freeFrames vm.pool) :
    ∃ vm', mapPage vm a a = some vm' ∧ PageMapped vm vm' a := by
  obtain ⟨r, hinv⟩ := hs.treeInv
  obtain ⟨vm', hmap, hm⟩ := mapPage_spec a hinv hfree
  have hcanonical : Canonical a := Or.inl (by omega)
  refine ⟨vm', hmap, ⟨?_, ?_⟩⟩
  · intro v hv hne
    have hpath : path v ≠ path a := fun h => hne ((path_eq_canonical hv hcanonical).mp h)
    rw [hm.inv.root, hinv.root, physicalAddress_eq_slots, physicalAddress_eq_slots, hm.other v hpath]
  · intro hnone v hpage
    have hpath : path v = path a := (path_eq_canonical (Or.inl (by omega)) hcanonical).mpr hpage
    rw [hinv.root, walk_eq_slots, Option.map_eq_none_iff] at hnone
    rw [hm.inv.root, physicalAddress_eq_slots, hpath, hm.page, hnone, Option.none_or, Option.map_some,
      Nat.mod_eq_of_lt (show a / 4096 < 2 ^ 40 by omega), ← hpage, Nat.div_add_mod]

theorem walk_page {m : Memory} {pml v w : Nat} (hv : v < 2 ^ 32) (hw : w < 2 ^ 32)
    (hpage : v / 4096 = w / 4096) : walk m pml v = walk m pml w := by
  rw [walk_eq_follow, walk_eq_follow,
    (path_eq_canonical (Or.inl (by omega)) (Or.inl (by omega))).mpr hpage]

/-! ## The whole function -/

/-- A store to a register. -/
theorem apicReg_register {M : Machine} {offset : Nat} (value : UInt32) (hoffset : offset < 4096)
    (henabled : M.apicBase &&& APIC_BASE_ENABLE ≠ 0) (hpage : M.apicBase.toNat / 4096 = 0xFEE00)
    (haddress : ∀ v, v / 4096 = 0xFEE00 → physicalAddress M.vm.mem M.vm.pml v = some v) :
    apicReg M offset value = some { M with registers := Function.update M.registers offset value } := by
  have hregister : (APIC_BASE_ADDRESS + offset) / 4096 = 0xFEE00 := by
    unfold APIC_BASE_ADDRESS
    omega
  have hplace : (APIC_BASE_ADDRESS + offset) % 4096 = offset := by
    unfold APIC_BASE_ADDRESS
    omega
  rw [apicReg, haddress _ hregister]
  simp only [hregister, hpage, hplace, henabled, ne_eq, not_false_eq_true, and_self, if_true]

/-- The registers as `init_apic` sets them. -/
def started (registers : Nat → UInt32) : Nat → UInt32 :=
  Function.update (Function.update (Function.update (Function.update registers
    APIC_SVR ((0xFF : UInt32) ||| (1 : UInt32) <<< 8)) APIC_TIMER_DIV 0x3)
    APIC_LVT_TIMER ((0x20 : UInt32) ||| (1 : UInt32) <<< 17)) APIC_TIMER_INIT_COUNT 10000

theorem startTimer_registers {M : Machine}
    (henabled : M.apicBase &&& APIC_BASE_ENABLE ≠ 0) (hpage : M.apicBase.toNat / 4096 = 0xFEE00)
    (haddress : ∀ v, v / 4096 = 0xFEE00 → physicalAddress M.vm.mem M.vm.pml v = some v) :
    startTimer M = some { M with registers := started M.registers, interruptFlag := true } := by
  have hstore : ∀ registers offset value, offset < 4096 →
      apicReg { M with registers := registers } offset value =
        some { M with registers := Function.update registers offset value } :=
    fun registers offset value hoffset =>
      apicReg_register (M := { M with registers := registers }) value hoffset henabled hpage haddress
  rw [startTimer, hstore M.registers APIC_SVR _ (by decide), Option.bind_eq_bind, Option.bind_some,
    hstore _ APIC_TIMER_DIV _ (by decide), Option.bind_some,
    hstore _ APIC_LVT_TIMER _ (by decide), Option.bind_some,
    hstore _ APIC_TIMER_INIT_COUNT _ (by decide), Option.bind_some, started]

theorem startTimer_unmapped {M : Machine}
    (hnone : physicalAddress M.vm.mem M.vm.pml (APIC_BASE_ADDRESS + APIC_SVR) = none) :
    startTimer M = none := by
  rw [startTimer, apicReg, hnone]
  rfl

theorem timer_started (registers : Nat → UInt32) :
    timer (started registers) = some { vector := 32, cycles := 160000 } := by
  have hlvt : started registers APIC_LVT_TIMER = 0x20020 := rfl
  have hsvr : started registers APIC_SVR = 0x1FF := rfl
  have hdiv : started registers APIC_TIMER_DIV = 0x3 := rfl
  have hcount : started registers APIC_TIMER_INIT_COUNT = 10000 := rfl
  rw [timer, hlvt, hsvr, hdiv, hcount]
  rfl

theorem ticks_started (registers : Nat → UInt32) :
    ∃ t, timer (started registers) = some t ∧ t.vector = 32 ∧ t.cycles = 160000 ∧
      ∀ sched, dispatched sched t.vector = some (.process (schedule sched)) := by
  refine ⟨_, timer_started registers, rfl, rfl, fun sched => ?_⟩
  rw [dispatched, if_pos (Or.inr (Or.inr rfl))]

theorem started_other {registers : Nat → UInt32} {offset : Nat}
    (h : offset ∉ [APIC_SVR, APIC_TIMER_DIV, APIC_LVT_TIMER, APIC_TIMER_INIT_COUNT]) :
    started registers offset = registers offset := by
  simp only [List.mem_cons, List.not_mem_nil, or_false, not_or] at h
  obtain ⟨hsvr, hdiv, hlvt, hcount⟩ := h
  rw [started, Function.update_of_ne hcount, Function.update_of_ne hlvt, Function.update_of_ne hdiv,
    Function.update_of_ne hsvr]

/-- From every page-table state in which the page of the registers is not mapped, `init_apic`
gets to its end exactly when the firmware has given the address that the registers are used
at, and then leaves the timer running and nothing else that interrupts. -/
theorem initApic_running_iff {M : Machine} (hs : Reachable M.vm) (a : UInt32)
    (hnone : walk M.vm.mem M.vm.pml APIC_BASE_ADDRESS = none)
    (hfree : tablesNeeded M.vm.mem M.vm.pml a.toNat ≤ freeFrames M.vm.pool) :
    ((∃ M', initApic M a.toUInt64 = some M') ↔ a.toNat / 4096 = 0xFEE00 ∧ a &&& 0x6FF = 0) ∧
      ∀ M', initApic M a.toUInt64 = some M' → Running a M M' := by
  obtain ⟨vm, hmap, hpaged⟩ := mapPage_self hs a.toNat_lt hfree
  have hsplit : initApic M a.toUInt64 =
      if a &&& 0x6FF = 0 then
        startTimer { M with
          pics := disablePic M.pics, vm := vm, apicBase := a.toUInt64 ||| APIC_BASE_ENABLE }
      else none := by
    rw [initApic, UInt32.toNat_toUInt64, hmap, Option.bind_eq_bind, Option.bind_some, writeMsr_eq]
    by_cases hreserved : a &&& 0x6FF = 0
    · rw [if_pos ((reserved_enable a).mpr hreserved), if_pos hreserved, Option.bind_eq_bind,
        Option.bind_some]
    · rw [if_neg fun h => hreserved ((reserved_enable a).mp h), if_neg hreserved, Option.bind_eq_bind,
        Option.bind_none]
  rw [hsplit]
  by_cases hreserved : a &&& 0x6FF = 0
  · rw [if_pos hreserved]
    by_cases hpage : a.toNat / 4096 = 0xFEE00
    · have hbase : APIC_BASE_ADDRESS / 4096 = 0xFEE00 := rfl
      have hmapped := hpaged.mapped
        ((walk_page a.toNat_lt (by decide) (hpage.trans hbase.symm)).trans hnone)
      rw [hpage] at hmapped
      have hrun : startTimer { M with
          pics := disablePic M.pics, vm := vm, apicBase := a.toUInt64 ||| APIC_BASE_ENABLE } =
            some { M with
              pics := disablePic M.pics, vm := vm, apicBase := a.toUInt64 ||| APIC_BASE_ENABLE
              registers := started M.registers, interruptFlag := true } :=
        startTimer_registers (enabled_enable a.toUInt64) ((page_enable a).trans hpage) hmapped
      rw [hrun]
      refine ⟨iff_of_true ⟨_, rfl⟩ ⟨hpage, hreserved⟩, fun M' h => ?_⟩
      obtain rfl := Option.some.inj h
      obtain ⟨hmaster, hslave⟩ := disablePic_masked M.pics
      exact ⟨hmaster, hslave, rfl, ticks_started M.registers, fun _ h => started_other h,
        fun v hv => hmapped v (hv.trans hpage), hpaged.kept, rfl⟩
    · have hregister : (APIC_BASE_ADDRESS + APIC_SVR) / 4096 = 0xFEE00 := rfl
      have hunmapped := hpaged.kept (APIC_BASE_ADDRESS + APIC_SVR) (Or.inl (by decide))
        (fun h => hpage (h.symm.trans hregister))
      have hbefore : physicalAddress M.vm.mem M.vm.pml (APIC_BASE_ADDRESS + APIC_SVR) = none := by
        have hsame : walk M.vm.mem M.vm.pml (APIC_BASE_ADDRESS + APIC_SVR) =
            walk M.vm.mem M.vm.pml APIC_BASE_ADDRESS := walk_page (by decide) (by decide) rfl
        rw [physicalAddress, hsame, hnone, Option.map_none]
      have hrun : startTimer { M with
          pics := disablePic M.pics, vm := vm, apicBase := a.toUInt64 ||| APIC_BASE_ENABLE } = none :=
        startTimer_unmapped (hunmapped.trans hbefore)
      rw [hrun]
      refine ⟨iff_of_false ?_ fun h => hpage h.1, fun M' h => ?_⟩
      · rintro ⟨M', h⟩
        cases h
      · cases h
  · rw [if_neg hreserved]
    refine ⟨iff_of_false ?_ fun h => hreserved h.2, fun M' h => ?_⟩
    · rintro ⟨M', h⟩
      cases h
    · cases h

/-- Controllers in the middle of an initialisation and an address space with nothing mapped. -/
def sampleMachine : Machine where
  pics := fun _ => ⟨.icw3, false, false, 0, 0, 0, 0⟩
  vm := sampleVm
  apicBase := 0xFEE00900
  registers := fun _ => 0
  interruptFlag := false

theorem initApic_running_iff_usual :
    ((∃ M', initApic sampleMachine (0xFEE00000 : UInt32).toUInt64 = some M') ↔
        (0xFEE00000 : UInt32).toNat / 4096 = 0xFEE00 ∧ (0xFEE00000 : UInt32) &&& 0x6FF = 0) ∧
      ∀ M', initApic sampleMachine (0xFEE00000 : UInt32).toUInt64 = some M' →
        Running 0xFEE00000 sampleMachine M' :=
  initApic_running_iff (M := sampleMachine) sampleVm_reachable 0xFEE00000 (by decide +kernel)
    ((tablesNeeded_le_three _ _ _).trans (by decide +kernel))

end PaskakasaOS.Kernel.Apic
