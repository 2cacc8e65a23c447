import PaskakasaOS.Kernel.Printing
import PaskakasaOS.Kernel.Utils.Numbers

/-!
# What two printing processes leave on the console

Up to the first `scroll` the critical sections of `processA` and `processB` are never
interleaved: the console is the one that whole rounds of their loops, printed one after
the other, would have left.
-/
namespace PaskakasaOS.Kernel.PrintBlocks

open Lib.Runs
open Utils.TextTerminal Utils.TerminalContents Utils.PrintSteps Utils.Numbers Printing

/-! ## Rounds one after the other -/

/-- The text of a round. -/
def blockText (p : Pid) (value : UInt64) : List UInt8 :=
  (match p with
    | .A => counted [0x45, 0x4b, 0x41, 0x20]
    | .B => counted [0x54, 0x4f, 0x49, 0x4e, 0x45, 0x4e, 0x20]) ++
    counted [0x30, 0x78] ++ itoa value 16 ++ counted [0xa]

/-- A round that nothing comes between. -/
def block (p : Pid) (value : UInt64) (t : Console) : Console :=
  sti (printcount (cli t) (blockText p value))

/-- The value with which a process begins. -/
def firstValue : Pid → UInt64
  | .A => 0
  | .B => 0xFFFFFF

/-- The console after the rounds of `log`, the last one first; each process counts its own. -/
def printed (t : Console) : List Pid → Console
  | [] => { t with interruptFlag := true }
  | p :: log => block p (firstValue p + UInt64.ofNat (log.count p)) (printed t log)

/-! ## A round under way -/

/-- The console with which a critical section ends. -/
def leave : List Instr → Console → Console
  | [], t => t
  | .cli :: script, t => leave script (cli t)
  | .print string :: script, t => leave script (printcount t string)
  | .sti :: _, t => sti t
  | .increment :: script, t => leave script t

theorem leave_loopBody (p : Pid) (value : UInt64) (t : Console) :
    leave (loopBody p value) t = block p value t := by
  cases p
  all_goals
    rw [block, blockText, ← printcount_append, ← printcount_append, ← printcount_append]
    rfl

/-- A thread before instruction `k` of its loop body, with `n` rounds' worth of counting behind
it: the `sti` ends a round, and `increment` comes after it. -/
structure At (p : Pid) (thread : Thread) (n : UInt64) (k : Nat) : Prop where
  le : k ≤ 7
  script : thread.script = (loopBody p thread.value).drop k
  counted : n = if k = 6 then thread.value + 1 else thread.value

/-- The instructions that a thread can be before. -/
inductive Place (p : Pid) (thread : Thread) (n : UInt64) : Prop where
  | finished (hscript : thread.script = []) (hn : n = thread.value)
  | enter (script : List Instr) (hscript : thread.script = .cli :: script)
      (hrest : script = (loopBody p thread.value).drop 1) (hn : n = thread.value)
  | printing (k : Nat) (string : List UInt8) (script : List Instr) (hk : k < 5)
      (hscript : thread.script = .print string :: script)
      (hrest : script = (loopBody p thread.value).drop (k + 1)) (hn : n = thread.value)
  | exit (script : List Instr) (hscript : thread.script = .sti :: script)
      (hrest : script = (loopBody p thread.value).drop 6) (hn : n = thread.value)
  | counting (hscript : thread.script = [.increment]) (hn : n = thread.value + 1)

theorem At.place {p : Pid} {thread : Thread} {n : UInt64} {k : Nat} (h : At p thread n k) :
    Place p thread n := by
  obtain ⟨hk, hscript, hn⟩ := h
  match k, hk with
  | 0, _ => cases p <;> exact .enter _ hscript rfl hn
  | 1, _ => cases p <;> exact .printing 1 _ _ (by decide) hscript rfl hn
  | 2, _ => cases p <;> exact .printing 2 _ _ (by decide) hscript rfl hn
  | 3, _ => cases p <;> exact .printing 3 _ _ (by decide) hscript rfl hn
  | 4, _ => cases p <;> exact .printing 4 _ _ (by decide) hscript rfl hn
  | 5, _ => cases p <;> exact .exit _ hscript rfl hn
  | 6, _ => cases p <;> exact .counting hscript hn
  | 7, _ => cases p <;> exact .finished hscript hn

/-! ## The invariant -/

/-- After the rounds of `log`, with perhaps one more under way in the running process. -/
structure Serial (t : Console) (log : List Pid) (s : System) : Prop where
  exclusive : Exclusive s
  place : ∀ p, ∃ k, At p (s.threads p) (firstValue p + UInt64.ofNat (log.count p)) k
  outside : critical (s.threads s.running).script = false → s.console = printed t log
  inside : critical (s.threads s.running).script = true →
    ∃ t', Steps (s.console, (s.threads s.running).pending) (t', []) ∧
      leave (s.threads s.running).script t' = printed t (s.running :: log)

theorem serial_start (t : Console) : Serial t [] (start t) where
  exclusive := exclusive_start t
  place p := by
    cases p
    · exact ⟨0, by decide, rfl, rfl⟩
    · exact ⟨0, by decide, rfl, rfl⟩
  outside _ := rfl
  inside h := nomatch h

theorem Steps.of_nil {t t' : Console} (h : Steps (t, []) (t', [])) : t' = t := by
  obtain ⟨n, hn⟩ := h
  have hstay : next^[n] (t, []) = (t, []) := Function.iterate_fixed rfl n
  rw [hstay] at hn
  exact (Prod.mk.inj hn).1.symm

theorem Steps.tail {t t' : Console} {ops : List Op} (hops : ops ≠ []) (h : Steps (t, ops) (t', [])) :
    Steps (next (t, ops)) (t', []) := by
  obtain ⟨n, hn⟩ := h
  cases n with
  | zero => exact absurd (Prod.mk.inj hn).2 hops
  | succ n => exact ⟨n, hn⟩

/-- A step of the running thread in which no round ends. -/
theorem Serial.within {t : Console} {log : List Pid} {s : System} {console : Console} {thread : Thread}
    {k : Nat} (h : Serial t log s)
    (hx : Exclusive { s with console := console, threads := Function.update s.threads s.running thread })
    (hplace : At s.running thread (firstValue s.running + UInt64.ofNat (log.count s.running)) k)
    (houtside : critical thread.script = false → console = printed t log)
    (hinside : critical thread.script = true → ∃ t', Steps (console, thread.pending) (t', []) ∧
      leave thread.script t' = printed t (s.running :: log)) :
    Serial t log { s with console := console, threads := Function.update s.threads s.running thread } where
  exclusive := hx
  place p := by
    by_cases hp : p = s.running
    · subst hp
      simp only [Function.update_self]
      exact ⟨k, hplace⟩
    · simp only [Function.update_of_ne hp]
      exact h.place p
  outside := by
    simp only [Function.update_self]
    exact houtside
  inside := by
    simp only [Function.update_self]
    exact hinside

/-- The end of a round, at its `sti`. -/
theorem Serial.ended {t : Console} {log : List Pid} {s : System} {thread : Thread} {k : Nat}
    (h : Serial t log s)
    (hx : Exclusive { s with
      console := printed t (s.running :: log), threads := Function.update s.threads s.running thread })
    (hplace : At s.running thread (firstValue s.running + UInt64.ofNat (log.count s.running) + 1) k)
    (hcritical : critical thread.script = false) :
    Serial t (s.running :: log) { s with
      console := printed t (s.running :: log)
      threads := Function.update s.threads s.running thread } where
  exclusive := hx
  place p := by
    by_cases hp : p = s.running
    · subst hp
      have hcount : UInt64.ofNat ((s.running :: log).count s.running) =
          UInt64.ofNat (log.count s.running) + 1 := by
        rw [List.count_cons_self, UInt64.ofNat_add]
        rfl
      simp only [Function.update_self]
      rw [hcount, ← UInt64.add_assoc]
      exact ⟨k, hplace⟩
    · simp only [Function.update_of_ne hp]
      rw [List.count_cons_of_ne (Ne.symm hp)]
      exact h.place p
  outside _ := rfl
  inside hin := by
    simp only [Function.update_self] at hin
    rw [hcritical] at hin
    cases hin

theorem serial_tick {t : Console} {log : List Pid} {s : System} {q : Pid} (h : Serial t log s)
    (hset : s.console.interruptFlag = true) (hx : Exclusive (switch s q)) :
    Serial t log (switch s q) := by
  have hwaiting := h.exclusive.switch_waiting hset q
  have hout : critical (s.threads s.running).script = false := by
    have hflag := h.exclusive.running.flag
    rw [hset] at hflag
    exact (Bool.not_eq_true' _).mp hflag.symm
  have hconsole : (switch s q).console = s.console := by
    have hq := (hwaiting q).flag
    show { s.console with interruptFlag := ((switch s q).threads q).interruptFlag } = s.console
    rw [hq, ← hset]
  refine ⟨hx, fun p => ?_, fun _ => hconsole.trans (h.outside hout), fun hin => ?_⟩
  · obtain ⟨k, hk⟩ := h.place p
    refine ⟨k, ?_⟩
    by_cases hp : p = s.running
    · subst hp
      simp only [switch, Function.update_self]
      exact ⟨hk.le, hk.script, hk.counted⟩
    · simp only [switch, Function.update_of_ne hp]
      exact hk
  · have hout' : critical ((switch s q).threads (switch s q).running).script = false :=
      (hwaiting q).outside
    rw [hout'] at hin
    cases hin

theorem serial_run {t : Console} {log : List Pid} {s s' : System} (h : Serial t log s)
    (hs : step s .run = some s') (hx : Exclusive s') : ∃ log', Serial t log' s' := by
  obtain rfl := Option.some.inj hs
  have hguarded := h.exclusive.running.guarded
  by_cases hp : (s.threads s.running).pending = []
  · have hstep : threadStep s.running s.console (s.threads s.running) =
        instruction s.running s.console (s.threads s.running) := if_pos hp
    simp only [hstep] at hx ⊢
    obtain ⟨k, hk⟩ := h.place s.running
    cases hk.place with
    | finished hscript hn =>
      have hout : critical (s.threads s.running).script = false := by
        rw [hscript]
        rfl
      have hinstr : instruction s.running s.console (s.threads s.running) =
          (s.console, { s.threads s.running with
            script := loopBody s.running (s.threads s.running).value }) := by
        rw [instruction, hscript]
      rw [hinstr] at hx ⊢
      refine ⟨log, h.within (k := 0) hx ⟨by decide, rfl, hn⟩ (fun _ => h.outside hout) fun hin => ?_⟩
      rw [critical_loopBody] at hin
      cases hin
    | enter script hscript hrest hn =>
      have hout : critical (s.threads s.running).script = false := by
        rw [hscript]
        rfl
      have hinstr : instruction s.running s.console (s.threads s.running) =
          (cli s.console, { s.threads s.running with script := script }) := by
        rw [instruction, hscript]
      rw [hscript] at hguarded
      rw [hinstr] at hx ⊢
      refine ⟨log, h.within (k := 1) hx ⟨by decide, hrest, hn⟩ (fun hout' => ?_) fun _ => ?_⟩
      · rw [hguarded.1] at hout'
        cases hout'
      · refine ⟨cli s.console, hp ▸ Steps.refl _, ?_⟩
        have hwhole : leave (loopBody s.running (s.threads s.running).value) s.console =
            leave script (cli s.console) := by
          rw [hrest]
          cases s.running <;> rfl
        rw [← hwhole, leave_loopBody, printed, hn, h.outside hout]
    | printing k string script hk hscript hrest hn =>
      have hinstr : instruction s.running s.console (s.threads s.running) =
          (s.console, { s.threads s.running with script := script, pending := printOps string }) := by
        rw [instruction, hscript]
      rw [hscript] at hguarded
      have hcritical : critical (s.threads s.running).script = true := by
        rw [hscript]
        exact hguarded.1
      obtain ⟨t', hsteps, hend⟩ := h.inside hcritical
      rw [hp] at hsteps
      rw [Steps.of_nil hsteps, hscript] at hend
      rw [hinstr] at hx ⊢
      refine ⟨log, h.within (k := k + 1) hx ⟨by omega, hrest, ?_⟩ (fun hout => ?_) fun _ => ?_⟩
      · rw [if_neg (by omega)]
        exact hn
      · rw [hguarded.1] at hout
        cases hout
      · exact ⟨printcount s.console string, steps_printcount string s.console, hend⟩
    | exit script hscript hrest hn =>
      have hinstr : instruction s.running s.console (s.threads s.running) =
          (sti s.console, { s.threads s.running with script := script }) := by
        rw [instruction, hscript]
      rw [hscript] at hguarded
      have hcritical : critical (s.threads s.running).script = true := by
        rw [hscript]
        rfl
      obtain ⟨t', hsteps, hend⟩ := h.inside hcritical
      rw [hp] at hsteps
      rw [Steps.of_nil hsteps, hscript] at hend
      have hconsole : sti s.console = printed t (s.running :: log) := hend
      rw [hinstr, hconsole] at hx ⊢
      exact ⟨s.running :: log, h.ended (k := 6) hx ⟨by decide, hrest, by rw [hn]; rfl⟩ hguarded.1⟩
    | counting hscript hn =>
      have hout : critical (s.threads s.running).script = false := by
        rw [hscript]
        rfl
      have hinstr : instruction s.running s.console (s.threads s.running) =
          (s.console, { s.threads s.running with
            script := [], value := (s.threads s.running).value + 1 }) := by
        rw [instruction, hscript]
      rw [hinstr] at hx ⊢
      refine ⟨log, h.within (k := 7) hx ⟨Nat.le_refl 7, ?_, hn⟩ (fun _ => h.outside hout) fun hin => ?_⟩
      · cases s.running <;> rfl
      · cases hin
  · have hstep : threadStep s.running s.console (s.threads s.running) =
        ((next (s.console, (s.threads s.running).pending)).1,
          { s.threads s.running with pending := (next (s.console, (s.threads s.running).pending)).2 }) :=
      if_neg hp
    have hcritical := h.exclusive.running.printing hp
    obtain ⟨t', hsteps, hend⟩ := h.inside hcritical
    obtain ⟨k, hk⟩ := h.place s.running
    simp only [hstep] at hx ⊢
    refine ⟨log, h.within hx ⟨hk.le, hk.script, hk.counted⟩ (fun hout => ?_)
      fun _ => ⟨t', Steps.tail hp hsteps, hend⟩⟩
    have hnone : critical (s.threads s.running).script = false := hout
    rw [hcritical] at hnone
    cases hnone

theorem serial_step {t : Console} (s : System) (e : Event) (s' : System) (h : ∃ log, Serial t log s)
    (hroom : Room s e) (hs : step s e = some s') : ∃ log, Serial t log s' := by
  obtain ⟨log, h⟩ := h
  have hx := exclusive_step s e s' h.exclusive hroom hs
  cases e with
  | run => exact serial_run h hs hx
  | tick q =>
    rw [step] at hs
    by_cases hset : s.console.interruptFlag = true
    · rw [if_pos hset] at hs
      obtain rfl := Option.some.inj hs
      exact ⟨log, serial_tick h hset hx⟩
    · rw [if_neg hset] at hs
      cases hs

/-- In every order of steps and ticks in which each print starts with room, the console is one
that whole rounds have left, each with the next number of its process, and a round
under way ends as the next of them. -/
theorem run_printed (t : Console) {es : List Event} {s : System}
    (halong : Along step Room (start t) es) (hrun : run step (start t) es = some s) :
    ∃ log : List Pid,
      (∀ p, ∃ k, At p (s.threads p) (firstValue p + UInt64.ofNat (log.count p)) k) ∧
      (s.console.interruptFlag = true → s.console = printed t log) ∧
      (s.console.interruptFlag = false →
        ∃ t', Steps (s.console, (s.threads s.running).pending) (t', []) ∧
          leave (s.threads s.running).script t' = printed t (s.running :: log)) := by
  obtain ⟨log, h⟩ := run_invariant serial_step ⟨[], serial_start t⟩ halong hrun
  have hflag := h.exclusive.running.flag
  refine ⟨log, h.place, fun hset => h.outside ?_, fun hclear => h.inside ?_⟩
  · rw [hset] at hflag
    exact (Bool.not_eq_true' _).mp hflag.symm
  · rw [hclear] at hflag
    exact Bool.not_eq_eq_eq_not.mp hflag.symm

theorem run_printed_opening :
    ∃ s, run step (start (initTextTerminal sampleSizes zeroConsole)) sampleEvents = some s ∧
      ∃ log : List Pid,
        (∀ p, ∃ k, At p (s.threads p) (firstValue p + UInt64.ofNat (log.count p)) k) ∧
        (s.console.interruptFlag = true →
          s.console = printed (initTextTerminal sampleSizes zeroConsole) log) ∧
        (s.console.interruptFlag = false →
          ∃ t', Steps (s.console, (s.threads s.running).pending) (t', []) ∧
            leave (s.threads s.running).script t' =
              printed (initTextTerminal sampleSizes zeroConsole) (s.running :: log)) :=
  ⟨_, rfl, run_printed (initTextTerminal sampleSizes zeroConsole)
    (sampleEvents_room _ (by decide)) rfl⟩

end PaskakasaOS.Kernel.PrintBlocks
