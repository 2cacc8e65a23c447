import PaskakasaOS.Kernel.ContextSwitch

/-!
# What a run of interrupts with any vectors leaves in the process table

`save_context` takes the slots in turn, one for each interrupt, whether or not the handler
then switches. So a slot holds the last but few frames, whichever process they were taken
from, and a switch resumes what was found three interrupts before.
-/
namespace PaskakasaOS.Kernel.Rotation

open Lib.Runs
open Interrupts.Stub Interrupts.Handler Scheduler ContextSwitch

/-- The interrupts that switch. -/
def switches (es : List Interrupt) : Nat := es.countP fun e => Switches e.number

/-- The interrupts up to the last one that switches. -/
def lastSwitch (es : List Interrupt) : Nat := (es.reverse.dropWhile fun e => ¬ Switches e.number).length

/-- The process table and the counters after the interrupts `es`. -/
structure Rotated (table : Fin 4 → Process) (es : List Interrupt) (m : Machine) : Prop where
  counter : m.globals.sched.counter.val = es.length % 4
  running : m.running.val = lastSwitch es % 4
  saved : ∀ i e, es[i]? = some e → es.length ≤ i + 4 → ∀ p : Fin 4, p.val = i % 4 →
    (m.globals.sched.processes p).context = copyContext (table p).context e.status
  untouched : ∀ p : Fin 4, es.length ≤ p.val → m.globals.sched.processes p = table p
  ticks : m.globals.val = 1 + Int32.ofNat (switches es)
  eoi : m.globals.eoi = switches es
  resumed : ∀ earlier e, es = earlier ++ [e] → Switches e.number →
    m.cpu = (m.globals.sched.processes m.running).context.cpu

theorem rotated_boot (table : Fin 4 → Process) (boot : Cpu) :
    Rotated table [] (bootMachine table boot) where
  counter := rfl
  running := rfl
  saved _ _ he := nomatch he
  untouched _ _ := rfl
  ticks := rfl
  eoi := rfl
  resumed earlier e h := absurd h.symm (List.concat_ne_nil e earlier)

section Step

variable {table : Fin 4 → Process} {es : List Interrupt} {m m' : Machine} {e : Interrupt}

theorem lastSwitch_snoc : lastSwitch (es ++ [e]) =
    if Switches e.number then es.length + 1 else lastSwitch es := by
  rw [lastSwitch, List.reverse_append, List.reverse_singleton, List.singleton_append]
  by_cases hs : Switches e.number
  · rw [if_pos hs, List.dropWhile_cons_of_neg (by simpa using hs), List.length_cons,
      List.length_reverse]
  · rw [if_neg hs, List.dropWhile_cons_of_pos (by simpa using hs), lastSwitch]

theorem switches_snoc : switches (es ++ [e]) = switches es + if Switches e.number then 1 else 0 := by
  rw [switches, List.countP_append, List.countP_singleton, switches]
  simp only [decide_eq_true_eq]

theorem step_counts (h : step m e = some m') :
    m'.globals.val = m.globals.val + (if Switches e.number then 1 else 0) ∧
      m'.globals.eoi = m.globals.eoi + if Switches e.number then 1 else 0 := by
  rw [step, interruptGeneralHandler, status_number] at h
  by_cases hs : Switches e.number
  · rw [if_pos hs] at h
    obtain rfl := Option.some.inj h
    rw [if_pos hs, if_pos hs]
    exact ⟨rfl, rfl⟩
  · rw [if_neg hs] at h
    by_cases hh : e.number = 0x14
    · rw [if_pos hh] at h
      cases h
    · rw [if_neg hh] at h
      obtain rfl := Option.some.inj h
      rw [if_neg hs, if_neg hs]
      exact ⟨(Int32.add_zero _).symm, rfl⟩

/-- The slot that `counter` names gets the frame, and no other one does. -/
theorem Rotated.saved_step (hm : Rotated table es m)
    (hsched : m'.globals.sched = saveContext m.globals.sched e.status) {i : Nat} {e' : Interrupt}
    (hi : (es ++ [e])[i]? = some e') (hrecent : es.length + 1 ≤ i + 4) {p : Fin 4}
    (hp : p.val = i % 4) :
    (m'.globals.sched.processes p).context = copyContext (table p).context e'.status := by
  have hcounter := hm.counter
  rw [hsched]
  by_cases hlt : i < es.length
  · rw [List.getElem?_append_left hlt] at hi
    have hne : p ≠ m.globals.sched.counter := by
      rintro rfl
      omega
    rw [saveContext_other _ _ hne]
    exact hm.saved i e' hi (by omega) p hp
  · have hend := (List.getElem?_eq_some_iff.mp hi).1
    rw [List.length_append, List.length_singleton] at hend
    obtain rfl : i = es.length := by omega
    rw [List.getElem?_concat_length] at hi
    obtain rfl := Option.some.inj hi
    obtain rfl : p = m.globals.sched.counter := Fin.ext (hp.trans hcounter.symm)
    rw [saveContext_own]
    by_cases hfirst : es.length < 4
    · rw [hm.untouched _ (by omega)]
    · have hold : es[es.length - 4]? = some es[es.length - 4] := List.getElem?_eq_getElem (by omega)
      rw [hm.saved _ _ hold (by omega) _ (by omega)]
      rfl

/-- One interrupt moves on by one slot. -/
theorem Rotated.step (hm : Rotated table es m) (h : step m e = some m') :
    Rotated table (es ++ [e]) m' := by
  obtain ⟨hsched, _, hcase⟩ := step_cases h
  obtain ⟨hval, heoi⟩ := step_counts h
  have hlen : (es ++ [e]).length = es.length + 1 := List.length_append
  have hcounter : m'.globals.sched.counter.val = (es.length + 1) % 4 := by
    rw [hsched, saveContext_counter, Fin.val_add, hm.counter]
    show (es.length % 4 + 1) % 4 = (es.length + 1) % 4
    omega
  constructor
  · rw [hlen]
    exact hcounter
  · rw [lastSwitch_snoc]
    rcases hcase with ⟨hs, hrun, _⟩ | ⟨hs, _, hrun⟩
    · rw [if_pos hs, hrun]
      exact hcounter
    · rw [if_neg hs, hrun]
      exact hm.running
  · intro i e' hi hrecent p hp
    exact hm.saved_step hsched hi (hlen ▸ hrecent) hp
  · intro p hp
    have hold := hm.counter
    rw [hlen] at hp
    have hne : p ≠ m.globals.sched.counter := by
      rintro rfl
      omega
    rw [hsched, saveContext_other _ _ hne]
    exact hm.untouched p (by omega)
  · rw [hval, hm.ticks, switches_snoc, Int32.ofNat_add, Int32.add_assoc]
    split <;> rfl
  · rw [heoi, hm.eoi, switches_snoc]
  · intro earlier e' heq hs
    obtain rfl : e = e' := (List.append_inj' heq rfl).2 |> List.cons.inj |>.1
    rcases hcase with ⟨_, _, hcpu⟩ | ⟨hno, _⟩
    · exact hcpu
    · exact absurd hs hno

end Step

/-! ## The whole run -/

theorem rotated_run (table : Fin 4 → Process) (boot : Cpu) {es : List Interrupt}
    (hreturn : ∀ e ∈ es, e.number ≠ 0x14) :
    ∃ m, run step (bootMachine table boot) es = some m ∧ Rotated table es m := by
  induction es using List.reverseRecOn with
  | nil => exact ⟨_, rfl, rotated_boot table boot⟩
  | append_singleton es e ih =>
    obtain ⟨m, hrun, hm⟩ := ih fun e' he' => hreturn e' (List.mem_append_left _ he')
    obtain ⟨m', hstep⟩ := step_some (m := m) (hreturn e (List.mem_append_right _ List.mem_cons_self))
    exact ⟨m', by rw [run_snoc_of hrun, hstep], hm.step hstep⟩

/-- A switch resumes what was found three interrupts before, whichever process that was, with the
`rbx` that the slot began with; before that many it starts a process. -/
theorem Rotated.resumes {table : Fin 4 → Process} {es : List Interrupt} {m : Machine} {e : Interrupt}
    (hm : Rotated table (es ++ [e]) m) (hs : Switches e.number) :
    (∀ i e', es[i]? = some e' → es.length = i + 3 →
        m.cpu = withRbx e'.status.cpu (table m.running).context.rbx) ∧
      (es.length < 3 → m.cpu = (table m.running).context.cpu) := by
  have hlen : (es ++ [e]).length = es.length + 1 := List.length_append
  have hrunning := hm.running
  rw [lastSwitch_snoc, if_pos hs] at hrunning
  rw [hm.resumed es e rfl hs]
  constructor
  · intro i e' hi heq
    have hin := (List.getElem?_eq_some_iff.mp hi).1
    have hsaved := hm.saved i e' (by rw [List.getElem?_append_left hin]; exact hi) (by omega)
      m.running (by omega)
    rw [hsaved, copyContext_cpu]
  · intro hearly
    rw [hm.untouched m.running (by omega)]

/-- After `init_scheduler`, every run of interrupts with any vectors but that of the final `hlt`
leaves the table rotated, and each switch in it resumes the frame of three interrupts
before. -/
theorem run_rotated (entries : Entries) (image : Memory.Alloc.Image) (mem : Lib.ByteMemory.Memory)
    (processes : Fin 4 → Process) (boot : Cpu) {es : List Interrupt}
    (hreturn : ∀ e ∈ es, e.number ≠ 0x14) :
    ∃ table h, initScheduler entries (Memory.Alloc.installHeap image mem) processes = some (table, h) ∧
      ∃ m, run step (bootMachine table boot) es = some m ∧ Rotated table es m ∧
        ∀ earlier e, es = earlier ++ [e] → Switches e.number →
          (∀ i e', earlier[i]? = some e' → earlier.length = i + 3 →
              m.cpu = withRbx e'.status.cpu (table m.running).context.rbx) ∧
            (earlier.length < 3 → m.cpu = (table m.running).context.cpu) := by
  obtain ⟨table, h, hinit⟩ := initScheduler_installHeap entries image mem processes
  obtain ⟨m, hrun, hm⟩ := rotated_run table boot hreturn
  refine ⟨table, h, hinit, m, hrun, hm, ?_⟩
  rintro earlier e rfl hs
  exact hm.resumes hs

/-- An interrupt of a processor with all registers zero. -/
def zeroInterrupt (vector : Fin 256) : Interrupt := ⟨zeroCpu, vector, none, fun _ => 0⟩

/-- Three interrupts of the timer and one at another vector. -/
theorem run_rotated_four :
    ∃ table h, initScheduler sampleEntries
        (Memory.Alloc.installHeap Memory.HeapRuns.sampleImage (fun _ => 0)) (fun _ => zeroProcess) =
          some (table, h) ∧
      ∃ m, run step (bootMachine table zeroCpu) ([32, 33, 32, 32].map zeroInterrupt) = some m ∧
        Rotated table ([32, 33, 32, 32].map zeroInterrupt) m ∧
        ∀ earlier e, [32, 33, 32, 32].map zeroInterrupt = earlier ++ [e] → Switches e.number →
          (∀ i e', earlier[i]? = some e' → earlier.length = i + 3 →
              m.cpu = withRbx e'.status.cpu (table m.running).context.rbx) ∧
            (earlier.length < 3 → m.cpu = (table m.running).context.cpu) :=
  run_rotated sampleEntries Memory.HeapRuns.sampleImage (fun _ => 0) (fun _ => zeroProcess) zeroCpu
    (by decide)

end PaskakasaOS.Kernel.Rotation
