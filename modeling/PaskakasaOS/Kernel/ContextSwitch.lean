import PaskakasaOS.Lib.Runs
import PaskakasaOS.Kernel.Interrupts.Handler

/-!
# Runs of interrupts

Between two interrupts the running process changes its registers at will, so an
interrupt finds any processor state. The machine remembers, next to the kernel's
own state, which process runs and what every process had when it was last
interrupted.
-/
namespace PaskakasaOS.Kernel.ContextSwitch

open Lib.ByteMemory Lib.Runs
open Interrupts.Stub Interrupts.Handler Scheduler
open Memory.Alloc (Image installHeap)
open Memory.HeapRuns (sampleImage)

structure Machine where
  globals : Globals
  running : Fin 4
  cpu : Cpu
  last : Fin 4 → Cpu

/-- An interrupt: the state it finds, its vector, the error code the processor
pushes, and what the handler leaves in the registers. -/
structure Interrupt where
  cpu : Cpu
  vector : Fin 256
  errorCode : Option UInt64
  left : Reg → UInt64

def Interrupt.frame (e : Interrupt) : Stack :=
  stubEntry e.cpu.regs (vectorHandler e.vector (processorFrame e.cpu e.errorCode))

def Interrupt.status (e : Interrupt) : CpuStatus := CpuStatus.ofWords e.frame

/-- The `vector_number` the handler sees. -/
def Interrupt.number (e : Interrupt) : UInt64 := dollar e.vector

/-- After init_scheduler, with the boot thread running. -/
def bootMachine (processes : Fin 4 → Process) (boot : Cpu) : Machine where
  globals := { sched := { processes := processes, counter := initialCounter }, val := 1, eoi := 0 }
  running := initialCounter
  cpu := boot
  last := fun p => (processes p).context.cpu

/-- The exit path on the context the handler returned. -/
def resume (m : Machine) (e : Interrupt) (g : Globals) : Returned → Machine
  | .context =>
    { globals := g, running := m.running, cpu := stubExit e.left e.frame,
      last := Function.update m.last m.running e.cpu }
  | .process p =>
    { globals := g, running := p, cpu := stubExit e.left (g.sched.processes p).context.words,
      last := Function.update m.last m.running e.cpu }

def step (m : Machine) (e : Interrupt) : Option Machine :=
  (interruptGeneralHandler m.globals e.status).map fun r => resume m e r.2 r.1

/-! ## One interrupt -/

theorem status_number (e : Interrupt) : e.status.vectorNumber = e.number :=
  vectorNumber_entry e.cpu e.vector e.errorCode

/-- Everything an interrupt can do. -/
theorem step_cases {m m' : Machine} {e : Interrupt} (h : step m e = some m') :
    m'.globals.sched = saveContext m.globals.sched e.status ∧
      m'.last = Function.update m.last m.running e.cpu ∧
      (Switches e.number ∧ m'.running = m'.globals.sched.counter ∧
          m'.cpu = (m'.globals.sched.processes m'.running).context.cpu ∨
        ¬ Switches e.number ∧ e.number ≠ 0x14 ∧ m'.running = m.running) := by
  rw [step, interruptGeneralHandler, status_number] at h
  by_cases hs : Switches e.number
  · rw [if_pos hs] at h
    obtain rfl := Option.some.inj h
    refine ⟨rfl, rfl, Or.inl ⟨hs, rfl, ?_⟩⟩
    exact stubExit_words _ _
  · rw [if_neg hs] at h
    by_cases hh : e.number = 0x14
    · rw [if_pos hh] at h
      cases h
    · rw [if_neg hh] at h
      obtain rfl := Option.some.inj h
      exact ⟨rfl, rfl, Or.inr ⟨hs, hh, rfl⟩⟩

/-- Only the `hlt` case does not return. -/
theorem step_some {m : Machine} {e : Interrupt} (h : e.number ≠ 0x14) : ∃ m', step m e = some m' := by
  rw [step, interruptGeneralHandler, status_number, if_neg h]
  split <;> exact ⟨_, rfl⟩

theorem step_halts {m : Machine} {e : Interrupt} (h : e.number = 0x14) : step m e = none := by
  rw [step, interruptGeneralHandler, status_number, if_neg (by rw [h]; decide), if_pos h]
  rfl

/-! ## The owner of the slot -/

/-- The slot `save_context` writes belongs to the process that runs. -/
structure Owned (m : Machine) (e : Interrupt) : Prop where
  counter : m.globals.sched.counter = m.running
  others : ∀ p ≠ m.running,
    (saveContext m.globals.sched e.status).processes p = m.globals.sched.processes p

theorem owned_of_counter {m : Machine} (h : m.globals.sched.counter = m.running) (e : Interrupt) :
    Owned m e :=
  ⟨h, fun _ hp => saveContext_other _ _ (h ▸ hp)⟩

/-- The invariant survives a vector that switches, and no other. -/
theorem counter_step {m m' : Machine} {e : Interrupt} (hc : m.globals.sched.counter = m.running)
    (h : step m e = some m') : m'.globals.sched.counter = m'.running ↔ Switches e.number := by
  obtain ⟨hsched, _, ⟨hs, hrun, _⟩ | ⟨hs, _, hrun⟩⟩ := step_cases h
  · exact ⟨fun _ => hs, fun _ => hrun.symm⟩
  · have hnext : ∀ c : Fin 4, c + 1 ≠ c := by decide
    rw [hsched, saveContext_counter, hrun, hc]
    exact ⟨fun heq => absurd heq (hnext _), fun hs' => absurd hs' hs⟩

theorem run_not_halted {m m' : Machine} {es : List Interrupt} {k : Nat}
    (h : run step m (es.take k) = some m') :
    ∀ j < k, ∀ e, es[j]? = some e → e.number ≠ 0x14 := by
  induction k generalizing m' with
  | zero => exact fun j hj => absurd hj (Nat.not_lt_zero j)
  | succ k ih =>
    intro j hj e he hhalt
    cases hk : es[k]? with
    | none =>
      have hlen := (List.getElem?_eq_some_iff.mp he).1
      have hend := List.getElem?_eq_none_iff.mp hk
      rw [List.take_of_length_le (by omega), ← List.take_of_length_le hend] at h
      exact ih h j (by omega) e he hhalt
    | some e' =>
      rw [run_take_succ hk] at h
      obtain ⟨t, ht, hstep⟩ := Option.bind_eq_some_iff.mp h
      rcases Nat.lt_succ_iff_lt_or_eq.mp hj with hlt | rfl
      · exact ih ht j hlt e he hhalt
      · obtain rfl : e' = e := Option.some.inj (hk.symm.trans he)
        rw [step_halts hhalt] at hstep
        cases hstep

theorem run_of_not_halted {m : Machine} {es : List Interrupt} {k : Nat}
    (h : ∀ j < k, ∀ e, es[j]? = some e → e.number ≠ 0x14) : ∃ m', run step m (es.take k) = some m' := by
  have hall : ∀ e ∈ es.take k, e.number ≠ 0x14 := by
    intro e he
    obtain ⟨j, hj⟩ := List.mem_iff_getElem?.mp he
    have hlt := (List.getElem?_eq_some_iff.mp hj).1
    rw [List.length_take] at hlt
    rw [List.getElem?_take_of_lt (by omega)] at hj
    exact h j (by omega) e hj
  have htotal : ∀ m e, True → e.number ≠ 0x14 → ∃ m', step m e = some m' ∧ True := by
    intro m e _ he
    obtain ⟨t, ht⟩ := step_some (m := m) he
    exact ⟨t, ht, trivial⟩
  obtain ⟨m', hrun, _⟩ := run_total htotal trivial hall
  exact ⟨m', hrun⟩

/-- `counter` is the running process as long as every earlier interrupt switched. -/
theorem counter_run {processes : Fin 4 → Process} {boot : Cpu} {es : List Interrupt} {k : Nat}
    {m : Machine} (hsw : ∀ i < k, ∀ e, es[i]? = some e → Switches e.number)
    (hk : k ≤ es.length) (h : run step (bootMachine processes boot) (es.take k) = some m) :
    m.globals.sched.counter = m.running := by
  induction k generalizing m with
  | zero =>
    obtain rfl := Option.some.inj h
    rfl
  | succ k ih =>
    have he : es[k]? = some es[k] := List.getElem?_eq_getElem (by omega)
    rw [run_take_succ he] at h
    obtain ⟨t, ht, hstep⟩ := Option.bind_eq_some_iff.mp h
    have hc := ih (fun i hi => hsw i (by omega)) (by omega) ht
    exact (counter_step hc hstep).mpr (hsw k (by omega) _ he)

/-- Every interrupt of a run finds `counter` at the running process exactly when
each interrupt that another one follows switches, or comes when the processor has
halted. -/
theorem owned_iff_switches (table : Fin 4 → Process) (boot : Cpu) (es : List Interrupt) :
    (∀ k m e, run step (bootMachine table boot) (es.take k) = some m → es[k]? = some e → Owned m e) ↔
      ∀ i e, es[i]? = some e → i + 1 < es.length →
        Switches e.number ∨ ∃ j ≤ i, ∃ e', es[j]? = some e' ∧ e'.number = 0x14 := by
  constructor
  · intro hown i e he hlen
    by_cases hhalt : ∃ j ≤ i, ∃ e', es[j]? = some e' ∧ e'.number = 0x14
    · exact Or.inr hhalt
    · have hrun : ∀ j < i + 1, ∀ e', es[j]? = some e' → e'.number ≠ 0x14 :=
        fun j hj e' he' heq => hhalt ⟨j, by omega, e', he', heq⟩
      obtain ⟨m', hm'⟩ := run_of_not_halted hrun
      have hprefix := hm'
      rw [run_take_succ he] at hprefix
      obtain ⟨m, hm, hstep⟩ := Option.bind_eq_some_iff.mp hprefix
      have hnext := hown (i + 1) m' _ hm' (List.getElem?_eq_getElem hlen)
      exact Or.inl ((counter_step (hown i m e hm he).counter hstep).mp hnext.counter)
  · intro hcond k m e hm he
    have hlen := (List.getElem?_eq_some_iff.mp he).1
    apply owned_of_counter
    refine counter_run ?_ hlen.le hm
    intro i hi e' he'
    rcases hcond i e' he' (by omega) with hs | ⟨j, hj, e'', he'', hhalt⟩
    · exact hs
    · exact absurd hhalt (run_not_halted hm j (by omega) e'' he'')

/-- After `init_scheduler` the registers of every interrupt of a run go into the
slot of the running process, and into no other one, exactly when each interrupt
that another one follows has a vector that switches, or the processor has halted. -/
theorem counter_owner_iff (entries : Entries) (image : Image) (mem : Memory)
    (processes : Fin 4 → Process) (boot : Cpu) (es : List Interrupt) :
    ∃ table h, initScheduler entries (installHeap image mem) processes = some (table, h) ∧
      ((∀ k m e, run step (bootMachine table boot) (es.take k) = some m → es[k]? = some e →
          Owned m e) ↔
        ∀ i e, es[i]? = some e → i + 1 < es.length →
          Switches e.number ∨ ∃ j ≤ i, ∃ e', es[j]? = some e' ∧ e'.number = 0x14) := by
  obtain ⟨table, h, hinit⟩ := initScheduler_installHeap entries image mem processes
  exact ⟨table, h, hinit, owned_iff_switches table boot es⟩

/-- The zero-initialised `processes[i]`. -/
def zeroProcess : Process := ⟨.READY, CpuStatus.ofWords []⟩

def sampleEntries : Entries := ⟨0xFFFFFFFF80001000, 0xFFFFFFFF80002000, 0xFFFFFFFF80003000⟩

def zeroCpu : Cpu := ⟨fun _ => 0, 0, 0, 0, 0, 0⟩

/-- Vector 33 leaves the boot thread running while `counter` moves on, so that the
timer's interrupt goes into slot 1. -/
theorem counter_lost_after_other_vector :
    ¬ ∀ table h, initScheduler sampleEntries (installHeap sampleImage (fun _ => 0))
        (fun _ => zeroProcess) = some (table, h) →
      ∀ (es : List Interrupt) k m e, run step (bootMachine table zeroCpu) (es.take k) = some m →
        es[k]? = some e → Owned m e := by
  intro hclaim
  obtain ⟨table, h, hinit⟩ :=
    initScheduler_installHeap sampleEntries sampleImage (fun _ => 0) (fun _ => zeroProcess)
  have hsw := (owned_iff_switches table zeroCpu
    [⟨zeroCpu, 33, none, fun _ => 0⟩, ⟨zeroCpu, 32, none, fun _ => 0⟩]).mp
    (hclaim table h hinit _) 0 _ rfl (by decide)
  rcases hsw with hs | ⟨j, hj, e, he, hhalt⟩
  · exact absurd hs (by decide)
  · obtain rfl := Nat.le_zero.mp hj
    obtain rfl := Option.some.inj he
    exact absurd hhalt (by decide)

/-! ## The round trip of a context -/

/-- The APIC timer, at vector 32: `vector_number` is `0x32`. -/
structure Timer (e : Interrupt) : Prop where
  vector : e.vector = 32
  errorCode : e.errorCode = none

/-- The same state with another `rbx`. -/
def withRbx (cpu : Cpu) (rbx : UInt64) : Cpu := { cpu with regs := Function.update cpu.regs .rbx rbx }

/-- `save_context` takes over everything but `rbx`. -/
theorem copyContext_cpu (saved current : CpuStatus) :
    (copyContext saved current).cpu = withRbx current.cpu saved.rbx := by
  refine Cpu.ext ?_ rfl rfl rfl rfl rfl
  funext r
  cases r <;> rfl

theorem withRbx_eq_iff (cpu : Cpu) (rbx : UInt64) : withRbx cpu rbx = cpu ↔ cpu.regs .rbx = rbx := by
  constructor
  · intro h
    have hregs : Function.update cpu.regs .rbx rbx .rbx = cpu.regs .rbx :=
      congrFun (congrArg Cpu.regs h) .rbx
    rw [← hregs, Function.update_self]
  · rintro rfl
    rw [withRbx, Function.update_eq_self]

theorem Timer.number {e : Interrupt} (h : Timer e) : e.number = 0x32 := by
  rw [Interrupt.number, h.vector]
  rfl

theorem Timer.status {e : Interrupt} (h : Timer e) : e.status.cpu = e.cpu := by
  rw [Interrupt.status, Interrupt.frame, h.vector, h.errorCode]
  exact cpu_ofWords_entry e.cpu _ _

/-- After the timer interrupts `es` the processes took turns, and every slot holds
what its process had when it was last interrupted, except for `rbx`. -/
structure RoundRobin (table : Fin 4 → Process) (es : List Interrupt) (m : Machine) : Prop where
  counter : m.globals.sched.counter = m.running
  turn : m.running.val = es.length % 4
  saved : ∀ p, (m.globals.sched.processes p).context.cpu = withRbx (m.last p) (table p).context.rbx
  rbx : ∀ p, (m.globals.sched.processes p).context.rbx = (table p).context.rbx
  recent : ∀ i e, es[i]? = some e → es.length ≤ i + 4 → m.last (Fin.ofNat 4 i) = e.cpu
  fresh : ∀ p : Fin 4, es.length ≤ p.val → m.last p = (table p).context.cpu
  resumed : es ≠ [] → m.cpu = (m.globals.sched.processes m.running).context.cpu

theorem roundRobin_boot (table : Fin 4 → Process) (boot : Cpu) :
    RoundRobin table [] (bootMachine table boot) where
  counter := rfl
  turn := rfl
  saved p := ((withRbx_eq_iff _ _).mpr rfl).symm
  rbx _ := rfl
  recent i e he := by cases he
  fresh _ _ := rfl
  resumed h := absurd rfl h

/-- What a timer interrupt does when `counter` is the running process. -/
structure TurnPassed (m m' : Machine) (e : Interrupt) : Prop where
  running : m'.running = m.running + 1
  counter : m'.globals.sched.counter = m'.running
  own : (m'.globals.sched.processes m.running).context =
    copyContext (m.globals.sched.processes m.running).context e.status
  other : ∀ p ≠ m.running, m'.globals.sched.processes p = m.globals.sched.processes p
  last : m'.last = Function.update m.last m.running e.cpu
  resumed : m'.cpu = (m'.globals.sched.processes m'.running).context.cpu

theorem timer_step {m : Machine} {e : Interrupt} (hc : m.globals.sched.counter = m.running)
    (he : Timer e) : ∃ m', step m e = some m' ∧ TurnPassed m m' e := by
  have hswitch : Switches e.number := by
    rw [he.number]
    decide
  obtain ⟨m', hstep⟩ := step_some (m := m) (e := e) (by rw [he.number]; decide)
  obtain ⟨hsched, hlast, ⟨_, hrun, hcpu⟩ | ⟨hno, _⟩⟩ := step_cases hstep
  · refine ⟨m', hstep, ?_, hrun.symm, ?_, ?_, hlast, hcpu⟩
    · rw [hrun, hsched, saveContext_counter, hc]
    · rw [hsched, ← hc]
      exact saveContext_own _ _
    · intro p hp
      rw [hsched]
      exact saveContext_other _ _ (hc ▸ hp)
  · exact absurd hswitch hno

section TurnPassed

variable {table : Fin 4 → Process} {es : List Interrupt} {m m' : Machine} {e : Interrupt}

theorem RoundRobin.saved_step (hm : RoundRobin table es m) (he : Timer e) (ht : TurnPassed m m' e)
    (p : Fin 4) : (m'.globals.sched.processes p).context.cpu =
      withRbx (m'.last p) (table p).context.rbx := by
  rw [ht.last]
  by_cases hp : p = m.running
  · subst hp
    rw [Function.update_self, ht.own, copyContext_cpu, he.status, hm.rbx]
  · rw [Function.update_of_ne hp, ht.other p hp, hm.saved p]

theorem RoundRobin.rbx_step (hm : RoundRobin table es m) (ht : TurnPassed m m' e) (p : Fin 4) :
    (m'.globals.sched.processes p).context.rbx = (table p).context.rbx := by
  by_cases hp : p = m.running
  · subst hp
    rw [ht.own]
    exact hm.rbx _
  · rw [ht.other p hp, hm.rbx p]

theorem RoundRobin.recent_step (hm : RoundRobin table es m) (ht : TurnPassed m m' e) {i : Nat}
    {e' : Interrupt} (hi : (es ++ [e])[i]? = some e') (hrecent : es.length + 1 ≤ i + 4) :
    m'.last (Fin.ofNat 4 i) = e'.cpu := by
  have hturn := hm.turn
  rw [ht.last]
  by_cases hlt : i < es.length
  · rw [List.getElem?_append_left hlt] at hi
    have hne : Fin.ofNat 4 i ≠ m.running := by
      intro heq
      have hval : i % 4 = m.running.val := congrArg Fin.val heq
      omega
    rw [Function.update_of_ne hne]
    exact hm.recent i e' hi (by omega)
  · have hend := (List.getElem?_eq_some_iff.mp hi).1
    rw [List.length_append, List.length_singleton] at hend
    obtain rfl : i = es.length := by omega
    rw [List.getElem?_concat_length] at hi
    obtain rfl := Option.some.inj hi
    have heq : Fin.ofNat 4 es.length = m.running := Fin.ext hturn.symm
    rw [heq, Function.update_self]

/-- One timer interrupt passes the turn on. -/
theorem RoundRobin.step (hm : RoundRobin table es m) (he : Timer e) :
    ∃ m', step m e = some m' ∧ RoundRobin table (es ++ [e]) m' := by
  obtain ⟨m', hstep, ht⟩ := timer_step hm.counter he
  have hlen : (es ++ [e]).length = es.length + 1 := by simp
  have hturn := hm.turn
  refine ⟨m', hstep, ht.counter, ?_, hm.saved_step he ht, hm.rbx_step ht, ?_, ?_, fun _ => ht.resumed⟩
  · rw [ht.running, hlen, Fin.val_add, hturn]
    show (es.length % 4 + 1) % 4 = (es.length + 1) % 4
    omega
  · intro i e' hi hrecent
    exact hm.recent_step ht hi (hlen ▸ hrecent)
  · intro p hp
    rw [hlen] at hp
    have hne : p ≠ m.running := by
      rintro rfl
      omega
    rw [ht.last, Function.update_of_ne hne]
    exact hm.fresh p (by omega)

end TurnPassed

theorem roundRobin_run (table : Fin 4 → Process) (boot : Cpu) {es : List Interrupt}
    (htimer : ∀ e ∈ es, Timer e) :
    ∃ m, run step (bootMachine table boot) es = some m ∧ RoundRobin table es m := by
  induction es using List.reverseRecOn with
  | nil => exact ⟨_, rfl, roundRobin_boot table boot⟩
  | append_singleton es e ih =>
    obtain ⟨m, hrun, hm⟩ := ih (fun e' he' => htimer e' (List.mem_append_left _ he'))
    obtain ⟨m', hstep, hm'⟩ := hm.step (htimer e (List.mem_append_right _ List.mem_cons_self))
    exact ⟨m', by rw [run_snoc_of hrun, hstep], hm'⟩

/-- The resumed process has everything back when its slot has its `rbx`. -/
theorem RoundRobin.resumed_iff {table : Fin 4 → Process} {es : List Interrupt} {m : Machine}
    (hm : RoundRobin table es m) (hne : es ≠ []) :
    m.cpu = m.last m.running ↔ (m.last m.running).regs .rbx = (table m.running).context.rbx := by
  rw [hm.resumed hne, hm.saved, withRbx_eq_iff]

/-- What the `k`-th interrupt resumes: the process interrupted three interrupts
earlier, or one that never ran. -/
theorem resumed_rbx (table : Fin 4 → Process) (boot : Cpu) {es : List Interrupt}
    (htimer : ∀ e ∈ es, Timer e) {k : Nat} (hk : k < es.length) :
    ∃ m, run step (bootMachine table boot) (es.take (k + 1)) = some m ∧
      (m.cpu = m.last m.running ↔ ∀ i e, i + 3 = k → es[i]? = some e →
        e.cpu.regs .rbx = (table (Fin.ofNat 4 i)).context.rbx) := by
  obtain ⟨m, hrun, hm⟩ := roundRobin_run table boot
    (fun e he => htimer e (List.mem_of_mem_take he) : ∀ e ∈ es.take (k + 1), Timer e)
  have hlen : (es.take (k + 1)).length = k + 1 := by
    rw [List.length_take]
    omega
  have hturn := hm.turn
  rw [hlen] at hturn
  refine ⟨m, hrun, ?_⟩
  rw [hm.resumed_iff (List.ne_nil_of_length_eq_add_one hlen)]
  by_cases hearly : k < 3
  · have hfresh := hm.fresh m.running (by rw [hlen]; omega)
    rw [hfresh]
    exact ⟨fun _ i e hi => by omega, fun _ => rfl⟩
  · obtain ⟨i, rfl⟩ := Nat.exists_eq_add_of_le' (Nat.le_of_not_lt hearly)
    have hi : es[i]? = some es[i] := List.getElem?_eq_getElem (by omega)
    have hrunning : Fin.ofNat 4 i = m.running := by
      apply Fin.ext
      show i % 4 = m.running.val
      omega
    have hlast := hm.recent i es[i] (by rw [List.getElem?_take_of_lt (by omega), hi]) (by rw [hlen])
    rw [hrunning] at hlast
    rw [hlast]
    constructor
    · intro hrbx j e hj he
      obtain rfl : j = i := by omega
      obtain rfl := Option.some.inj (hi.symm.trans he)
      rw [hrunning]
      exact hrbx
    · intro hall
      rw [← hrunning]
      exact hall i _ rfl hi

/-- Over timer interrupts every resumed process has its state back exactly when
each process that gets another turn had the `rbx` its slot started with. -/
theorem roundTrip_iff_rbx (table : Fin 4 → Process) (boot : Cpu) {es : List Interrupt}
    (htimer : ∀ e ∈ es, Timer e) :
    (∀ k < es.length, ∃ m, run step (bootMachine table boot) (es.take (k + 1)) = some m ∧
        m.cpu = m.last m.running) ↔
      ∀ i e, es[i]? = some e → i + 3 < es.length →
        e.cpu.regs .rbx = (table (Fin.ofNat 4 i)).context.rbx := by
  constructor
  · intro htrip i e he hlen
    obtain ⟨m, hrun, hm⟩ := htrip (i + 3) hlen
    obtain ⟨m', hrun', hiff⟩ := resumed_rbx table boot htimer hlen
    obtain rfl : m = m' := Option.some.inj (hrun.symm.trans hrun')
    exact hiff.mp hm i e rfl he
  · intro hrbx k hk
    obtain ⟨m, hrun, hiff⟩ := resumed_rbx table boot htimer hk
    exact ⟨m, hrun, hiff.mpr (fun i e hi he => hrbx i e he (by omega))⟩

/-- After `init_scheduler`, over any run of timer interrupts, every context that is
resumed is the one its process was interrupted with, or the initial one, exactly
when each process that gets another turn had the `rbx` that its slot had from the
start. -/
theorem context_round_trip_iff (entries : Entries) (image : Image) (mem : Memory)
    (processes : Fin 4 → Process) (boot : Cpu) (es : List Interrupt) (htimer : ∀ e ∈ es, Timer e) :
    ∃ table h, initScheduler entries (installHeap image mem) processes = some (table, h) ∧
      ((∀ k < es.length, ∃ m, run step (bootMachine table boot) (es.take (k + 1)) = some m ∧
          m.cpu = m.last m.running) ↔
        ∀ i e, es[i]? = some e → i + 3 < es.length →
          e.cpu.regs .rbx = (processes (Fin.ofNat 4 i)).context.rbx) := by
  obtain ⟨table, h, hinit⟩ := initScheduler_installHeap entries image mem processes
  refine ⟨table, h, hinit, ?_⟩
  rw [roundTrip_iff_rbx table boot htimer]
  simp only [initScheduler_rbx hinit]

/-- A process interrupted with `rbx` at 1. -/
def sampleTimer : Interrupt := ⟨{ zeroCpu with regs := fun _ => 1 }, 32, none, fun _ => 0⟩

theorem sampleTimer_timer : ∀ e ∈ List.replicate 4 sampleTimer, Timer e := by
  intro e he
  rw [List.eq_of_mem_replicate he]
  exact ⟨rfl, rfl⟩

theorem context_round_trip_iff_four :
    ∃ table h, initScheduler sampleEntries (installHeap sampleImage (fun _ => 0))
        (fun _ => zeroProcess) = some (table, h) ∧
      ((∀ k < (List.replicate 4 sampleTimer).length, ∃ m,
          run step (bootMachine table zeroCpu) ((List.replicate 4 sampleTimer).take (k + 1)) = some m ∧
            m.cpu = m.last m.running) ↔
        ∀ i e, (List.replicate 4 sampleTimer)[i]? = some e →
          i + 3 < (List.replicate 4 sampleTimer).length →
          e.cpu.regs .rbx = zeroProcess.context.rbx) :=
  context_round_trip_iff sampleEntries sampleImage (fun _ => 0)
    (fun _ => zeroProcess) zeroCpu _ sampleTimer_timer

/-- The fourth tick resumes the boot thread, interrupted by the first one, with a zero `rbx`. -/
theorem rbx_lost_after_four_ticks :
    ¬ ∀ table h, initScheduler sampleEntries (installHeap sampleImage (fun _ => 0))
        (fun _ => zeroProcess) = some (table, h) →
      ∀ es : List Interrupt, (∀ e ∈ es, Timer e) →
        ∀ k < es.length, ∃ m, run step (bootMachine table zeroCpu) (es.take (k + 1)) = some m ∧
          m.cpu = m.last m.running := by
  intro hclaim
  obtain ⟨table, h, hinit⟩ :=
    initScheduler_installHeap sampleEntries sampleImage (fun _ => 0) (fun _ => zeroProcess)
  have hrbx := (roundTrip_iff_rbx table zeroCpu sampleTimer_timer).mp
    (hclaim table h hinit _ sampleTimer_timer) 0 sampleTimer rfl (by decide)
  rw [initScheduler_rbx hinit] at hrbx
  exact absurd hrbx (by decide)

end PaskakasaOS.Kernel.ContextSwitch
