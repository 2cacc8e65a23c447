import PaskakasaOS.Lib.Runs
import PaskakasaOS.Kernel.Utils.PrintSteps

/-!
# Two processes that print

`processA` and `processB` print between `cli` and `sti`. A timer tick switches to
another process, which happens only while the interrupt flag is set; each process
has its own flag, saved and restored with its context.
-/
namespace PaskakasaOS.Kernel.Printing

open Lib.Runs
open Utils.TextTerminal Utils.TerminalContents Utils.PrintSteps

inductive Pid where
  | A
  | B
  deriving DecidableEq

inductive Instr where
  | cli
  | print (string : List UInt8)
  | sti
  | increment

/-- `print_hex`. -/
def printHex (hex : UInt64) : List Instr :=
  [.print (counted [0x30, 0x78]), .print (itoa hex 16), .print (counted [0xa])]

/-- The body of the loop of a process, for the value of its counter. -/
def loopBody (p : Pid) (value : UInt64) : List Instr :=
  match p with
  | .A => [.cli, .print (counted [0x45, 0x4b, 0x41, 0x20])] ++ printHex value ++ [.sti, .increment]
  | .B =>
    [.cli, .print (counted [0x54, 0x4f, 0x49, 0x4e, 0x45, 0x4e, 0x20])] ++ printHex value ++
      [.sti, .increment]

/-- A process: `xA` or `xB`, the rest of its loop body, the rest of the print that
is under way, and its flag while it does not run. -/
structure Thread where
  value : UInt64
  script : List Instr
  pending : List Op
  interruptFlag : Bool

structure System where
  console : Console
  running : Pid
  threads : Pid → Thread

def startThread (p : Pid) : Thread :=
  let value := match p with
    | .A => 0
    | .B => 0xFFFFFF
  { value := value, script := loopBody p value, pending := [], interruptFlag := true }

/-- Both processes at their first instruction; `iret_flags` has the flag set. -/
def start (t : Console) : System where
  console := { t with interruptFlag := true }
  running := .A
  threads := startThread

/-- A timer tick that switches to a process, or a step of the running one. -/
inductive Event where
  | tick (p : Pid)
  | run

/-- The tick saves the flag of the interrupted process and restores that of `p`. -/
def switch (s : System) (p : Pid) : System :=
  let saved := { s.threads s.running with interruptFlag := s.console.interruptFlag }
  let threads := Function.update s.threads s.running saved
  { console := { s.console with interruptFlag := (threads p).interruptFlag }, running := p,
    threads := threads }

/-- One instruction of a thread, on the console. -/
def instruction (p : Pid) (console : Console) (thread : Thread) : Console × Thread :=
  match thread.script with
  | [] => (console, { thread with script := loopBody p thread.value })
  | .cli :: rest => (cli console, { thread with script := rest })
  | .print string :: rest => (console, { thread with script := rest, pending := printOps string })
  | .sti :: rest => (sti console, { thread with script := rest })
  | .increment :: rest => (console, { thread with script := rest, value := thread.value + 1 })

/-- One step of a thread: of its print, when one is under way. -/
def threadStep (p : Pid) (console : Console) (thread : Thread) : Console × Thread :=
  if thread.pending = [] then instruction p console thread
  else
    let s := next (console, thread.pending)
    (s.1, { thread with pending := s.2 })

def step (s : System) : Event → Option System
  | .tick p => if s.console.interruptFlag then some (switch s p) else none
  | .run =>
    let r := threadStep s.running s.console (s.threads s.running)
    some { s with console := r.1, threads := Function.update s.threads s.running r.2 }

/-- A print that starts has room below the cursor. -/
def Room (s : System) : Event → Prop
  | .tick _ => True
  | .run => (s.threads s.running).pending = [] → ∀ string rest,
      (s.threads s.running).script = .print string :: rest →
        rowsOpened s.console.width s.console.x string ≤ rowsBelow s.console

/-! ## The critical section of a script -/

/-- Whether the next change of the flag is the `sti`. -/
def critical : List Instr → Bool
  | [] => false
  | .cli :: _ => false
  | .sti :: _ => true
  | _ :: rest => critical rest

/-- `cli` opens the critical section, `sti` closes it, and prints stay inside. -/
def Guarded : List Instr → Prop
  | [] => True
  | .cli :: rest => critical rest = true ∧ Guarded rest
  | .print _ :: rest => critical rest = true ∧ Guarded rest
  | .sti :: rest => critical rest = false ∧ Guarded rest
  | .increment :: rest => Guarded rest

theorem critical_loopBody (p : Pid) (value : UInt64) : critical (loopBody p value) = false := by
  cases p <;> rfl

theorem guarded_loopBody (p : Pid) (value : UInt64) : Guarded (loopBody p value) := by
  cases p <;> exact ⟨rfl, rfl, rfl, rfl, rfl, rfl, trivial⟩

/-! ## One thread -/

/-- A thread and the flag it runs with: the flag is clear exactly in its critical
section, where alone it prints, and its print stays away from `scroll`. -/
structure Sound (console : Console) (flag : Bool) (thread : Thread) : Prop where
  guarded : Guarded thread.script
  flag : flag = !critical thread.script
  printing : thread.pending ≠ [] → critical thread.script = true
  quiet : Quiet (console, thread.pending)

theorem quiet_nil (console : Console) : Quiet (console, []) where
  plain := by
    intro op hop
    cases hop
  room := Nat.zero_le _

/-- A step with room keeps a thread sound. -/
theorem Sound.threadStep {p : Pid} {console : Console} {thread : Thread}
    (h : Sound console console.interruptFlag thread)
    (hroom : thread.pending = [] → ∀ string rest, thread.script = .print string :: rest →
      rowsOpened console.width console.x string ≤ rowsBelow console) :
    Sound (threadStep p console thread).1 (threadStep p console thread).1.interruptFlag
      (threadStep p console thread).2 := by
  have hguarded := h.guarded
  have hflag := h.flag
  rw [Printing.threadStep]
  by_cases hp : thread.pending = []
  · rw [if_pos hp, instruction]
    split
    · next hs =>
      rw [hs] at hflag
      refine ⟨guarded_loopBody _ _, ?_, fun hne => absurd hp hne, hp ▸ quiet_nil _⟩
      exact hflag.trans (congrArg (! ·) (critical_loopBody _ _)).symm
    · next rest hs =>
      rw [hs] at hguarded
      refine ⟨hguarded.2, ?_, fun hne => absurd hp hne, hp ▸ quiet_nil _⟩
      exact (congrArg (! ·) hguarded.1).symm
    · next string rest hs =>
      rw [hs] at hguarded hflag
      exact ⟨hguarded.2, hflag, fun _ => hguarded.1, quiet_printOps (hroom hp string rest hs)⟩
    · next rest hs =>
      rw [hs] at hguarded
      refine ⟨hguarded.2, ?_, fun hne => absurd hp hne, hp ▸ quiet_nil _⟩
      exact (congrArg (! ·) hguarded.1).symm
    · next rest hs =>
      rw [hs] at hguarded hflag
      exact ⟨hguarded, hflag, fun hne => absurd hp hne, hp ▸ quiet_nil _⟩
  · rw [if_neg hp]
    obtain ⟨hquiet, hsame⟩ := h.quiet.next
    exact ⟨hguarded, hsame.trans hflag, fun _ => h.printing hp, hquiet⟩

/-! ## The system -/

/-- Outside of its critical section, with its flag set and no print under way. -/
structure Waiting (thread : Thread) : Prop where
  guarded : Guarded thread.script
  flag : thread.interruptFlag = true
  outside : critical thread.script = false
  idle : thread.pending = []

/-- The running thread is sound with the processor's flag; the others wait. -/
structure Exclusive (s : System) : Prop where
  running : Sound s.console s.console.interruptFlag (s.threads s.running)
  waiting : ∀ p ≠ s.running, Waiting (s.threads p)

theorem exclusive_start (t : Console) : Exclusive (start t) where
  running := ⟨guarded_loopBody .A 0, rfl, fun hne => absurd rfl hne, quiet_nil _⟩
  waiting p _ := by
    cases p
    · exact ⟨guarded_loopBody .A 0, rfl, rfl, rfl⟩
    · exact ⟨guarded_loopBody .B 0xFFFFFF, rfl, rfl, rfl⟩

/-- A tick, which the set flag lets through, leaves every thread waiting. -/
theorem Exclusive.switch_waiting {s : System} (h : Exclusive s)
    (hset : s.console.interruptFlag = true) (q p : Pid) : Waiting ((switch s q).threads p) := by
  have hout : critical (s.threads s.running).script = false := by
    have hflag := h.running.flag
    rw [hset] at hflag
    exact (Bool.not_eq_true' _).mp hflag.symm
  have hidle : (s.threads s.running).pending = [] := by
    by_contra hne
    rw [h.running.printing hne] at hout
    cases hout
  by_cases hp : p = s.running
  · subst hp
    simp only [switch, Function.update_self]
    exact ⟨h.running.guarded, hset, hout, hidle⟩
  · simp only [switch, Function.update_of_ne hp]
    exact h.waiting p hp

theorem Waiting.sound {console : Console} {thread : Thread} (h : Waiting thread) :
    Sound console thread.interruptFlag thread where
  guarded := h.guarded
  flag := by
    rw [h.flag, h.outside]
    rfl
  printing hne := absurd h.idle hne
  quiet := h.idle ▸ quiet_nil _

theorem exclusive_step (s : System) (e : Event) (s' : System) (h : Exclusive s) (hroom : Room s e)
    (hs : step s e = some s') : Exclusive s' := by
  cases e with
  | run =>
    obtain rfl := Option.some.inj hs
    constructor
    · simp only [Function.update_self]
      exact h.running.threadStep hroom
    · intro p hp
      change p ≠ s.running at hp
      simp only [Function.update_of_ne hp]
      exact h.waiting p hp
  | tick q =>
    rw [step] at hs
    by_cases hset : s.console.interruptFlag = true
    · rw [if_pos hset] at hs
      obtain rfl := Option.some.inj hs
      have hall := h.switch_waiting hset q
      exact ⟨(hall q).sound, fun p _ => hall p⟩
    · rw [if_neg hset] at hs
      cases hs

/-- While a print is under way its process runs, with the flag clear. -/
theorem Exclusive.printing {s : System} (h : Exclusive s) {p : Pid}
    (hp : (s.threads p).pending ≠ []) : s.running = p ∧ s.console.interruptFlag = false := by
  by_cases hrun : p = s.running
  · subst hrun
    refine ⟨rfl, ?_⟩
    rw [h.running.flag, h.running.printing hp]
    rfl
  · exact absurd (h.waiting p hrun).idle hp

/-- A print entered with the interrupt flag clear returns, and keeps the flag clear
at every step, exactly when its text opens no more rows than there are below the
cursor; and in every run in which each print starts with such room, the process of
a print under way is the one that runs, with the flag clear. -/
theorem print_atomic_iff_room (t : Console) (hclear : t.interruptFlag = false) :
    (∀ str, (∃ n, next^[n] (t, printOps (counted str)) = (print t str, [])) ∧
      ((∀ n, (next^[n] (t, printOps (counted str))).1.interruptFlag = false) ↔
        rowsOpened t.width t.x (counted str) ≤ rowsBelow t)) ∧
    ∀ es s, Along step Room (start t) es → run step (start t) es = some s →
      ∀ p, (s.threads p).pending ≠ [] → s.running = p ∧ s.console.interruptFlag = false := by
  refine ⟨?_, ?_⟩
  · intro str
    exact ⟨steps_printcount (counted str) t, flag_clear_iff hclear (counted str)⟩
  · intro es s halong hrun p hp
    exact (run_invariant exclusive_step (exclusive_start t) halong hrun).printing hp

/-- A tick to `processB`, its `cli` and the start of its first print. -/
def sampleEvents : List Event := [.tick .B, .run, .run]

theorem sampleEvents_room (t : Console)
    (hroom : rowsOpened t.width t.x (counted [0x54, 0x4f, 0x49, 0x4e, 0x45, 0x4e, 0x20]) ≤ rowsBelow t) :
    Along step Room (start t) sampleEvents := by
  refine ⟨trivial, fun s1 h1 => ?_⟩
  obtain rfl := Option.some.inj h1
  refine ⟨?_, fun s2 h2 => ?_⟩
  · intro _ string rest hscript
    cases hscript
  · obtain rfl := Option.some.inj h2
    refine ⟨?_, fun _ _ => trivial⟩
    intro _ string rest hscript
    cases hscript
    exact hroom

/-- A print of 200 letters wraps without scrolling, and `processB` prints with the flag clear. -/
theorem print_atomic_iff_room_opening :
    let t := initTextTerminal sampleSizes zeroConsole
    let text := List.replicate 200 0x61
    (∃ n, next^[n] (t, printOps (counted text)) = (print t text, [])) ∧
      (∀ n, (next^[n] (t, printOps (counted text))).1.interruptFlag = false) ∧
      ∃ s, run step (start t) sampleEvents = some s ∧ s.running = .B ∧ s.console.interruptFlag = false := by
  intro t text
  obtain ⟨hprints, hruns⟩ := print_atomic_iff_room t rfl
  obtain ⟨hreturns, hclear⟩ := hprints text
  refine ⟨hreturns, hclear.mpr (by decide +kernel), _, rfl, ?_⟩
  exact hruns sampleEvents _ (sampleEvents_room t (by decide)) rfl .B (List.cons_ne_nil _ _)

/-- On 48 rows a text of 48 newlines ends up scrolling, which sets the flag. -/
theorem print_sets_flag_on_scroll :
    ¬ ∀ str n, (next^[n] (initTextTerminal sampleSizes zeroConsole,
      printOps (counted str))).1.interruptFlag = false := by
  intro hclaim
  have hroom := (flag_clear_iff (t := initTextTerminal sampleSizes zeroConsole) rfl _).mp
    (hclaim (List.replicate 48 0xa))
  exact absurd hroom (by decide)

end PaskakasaOS.Kernel.Printing
