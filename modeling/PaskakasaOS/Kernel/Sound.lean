import Mathlib.Data.List.Range

/-!
# `processC` of `kernel/scheduler.c`

The process programs channel 2 of the 8254 with one frequency after the other and waits for the
tick counter in between. A timer interrupt can come between any two of its accesses.
-/
namespace PaskakasaOS.Kernel.Sound

/-! ## The speaker -/

/-- Channel 2 of the 8254 and the two low bits of port 0x61, which gate it and connect the
speaker. `low` is the first byte of a count that has two, until the second one comes. -/
structure Speaker where
  access : Nat
  mode : Nat
  low : Option UInt8
  reload : Nat
  gate : UInt8

/-- A control word that is for channel 2 and does not only latch its count. -/
def Speaker.control (s : Speaker) (w : UInt8) : Speaker :=
  if w.toNat / 64 = 2 ∧ w.toNat / 16 % 4 ≠ 0 then
    { s with access := w.toNat / 16 % 4, mode := w.toNat / 2 % 8, low := none }
  else s

def Speaker.count (s : Speaker) (w : UInt8) : Speaker :=
  if s.access = 1 then { s with reload := w.toNat }
  else if s.access = 2 then { s with reload := 256 * w.toNat }
  else
    match s.low with
    | none => { s with low := some w }
    | some l => { s with low := none, reload := l.toNat + 256 * w.toNat }

/-- `outb` -/
def Speaker.outb (s : Speaker) (port : UInt16) (w : UInt8) : Speaker :=
  if port = 0x43 then s.control w
  else if port = 0x42 then s.count w
  else if port = 0x61 then { s with gate := w &&& 3 }
  else s

/-- `inb` of port 0x61, whose other bits are what the hardware makes them. -/
def Speaker.inb61 (s : Speaker) (status : UInt8) : UInt8 := status &&& 0xFC ||| s.gate &&& 3

/-! ## The process -/

def sounds : List UInt32 := [523, 440, 380, 680, 523]

/-- `Div` of `play_sound`. -/
def div (nFrequence : UInt32) : UInt32 := 1193180 / nFrequence

/-- The accesses of a round of the inner loop, in their order. -/
inductive Place where
  | getVal
  | mode
  | low
  | high
  | inb
  | gate
  | wait
  deriving DecidableEq

/-- The tick counter, the speaker with the bytes that `outb` has been called for, and the
variables of `processC` and `play_sound`. -/
structure World where
  ticks : Int32
  speaker : Speaker
  written : List (UInt16 × UInt8)
  place : Place
  y : Nat
  val : Int32
  tmp : UInt8

def World.write (s : World) (port : UInt16) (w : UInt8) : World :=
  { s with speaker := s.speaker.outb port w, written := s.written ++ [(port, w)] }

/-- A timer interrupt, or an access of the process with what the hardware shows on port 0x61. -/
inductive Event where
  | tick
  | run (status : UInt8)

def World.frequency (s : World) : UInt32 := sounds.getD s.y 0

def access (s : World) (status : UInt8) : World :=
  match s.place with
  | .getVal => { s with val := s.ticks, place := .mode }
  | .mode => { s.write 0x43 0xb6 with place := .low }
  | .low => { s.write 0x42 (div s.frequency).toUInt8 with place := .high }
  | .high => { s.write 0x42 (div s.frequency >>> 8).toUInt8 with place := .inb }
  | .inb => { s with tmp := s.speaker.inb61 status, place := .gate }
  | .gate =>
    if s.tmp ≠ s.tmp ||| 3 then { s.write 0x61 (s.tmp ||| 3) with place := .wait }
    else { s with place := .wait }
  | .wait =>
    if s.ticks - s.val < 100 then s
    else { s with y := if s.y + 1 < 5 then s.y + 1 else 0, place := .getVal }

def step (s : World) : Event → World
  | .tick => { s with ticks := s.ticks + 1 }
  | .run status => access s status

/-- `processC` at its first access. -/
def start (ticks : Int32) (speaker : Speaker) : World where
  ticks := ticks
  speaker := speaker
  written := []
  place := .getVal
  y := 0
  val := 0
  tmp := 0

/-! ## The tune -/

/-- What a round writes to the two ports of the timer. -/
def note (y : Nat) : List (UInt16 × UInt8) :=
  [(0x43, 0xb6), (0x42, (div (sounds.getD y 0)).toUInt8), (0x42, (div (sounds.getD y 0) >>> 8).toUInt8)]

/-- The first `k` rounds. -/
def tune (k : Nat) : List (UInt16 × UInt8) := (List.range k).flatMap fun i => note (i % 5)

/-- How many bytes of its note a round has sent. -/
def sent : Place → Nat
  | .getVal => 0
  | .mode => 0
  | .low => 1
  | .high => 2
  | _ => 3

/-- The bytes for the timer among those written. -/
def timerBytes (written : List (UInt16 × UInt8)) : List (UInt16 × UInt8) :=
  written.filter fun w => w.1 ≠ 0x61

/-- Channel 2 between the bytes of a count. -/
structure Programmed (s : Speaker) (y : Nat) : Prop where
  access : s.access = 3
  mode : s.mode = 3
  low : s.low = none
  reload : s.reload = 1193180 / (sounds.getD y 0).toNat

/-- Where the speaker is in a round. -/
def Phase (s : World) : Prop :=
  match s.place with
  | .low => s.speaker.access = 3 ∧ s.speaker.mode = 3 ∧ s.speaker.low = none
  | .high => s.speaker.access = 3 ∧ s.speaker.mode = 3 ∧
      s.speaker.low = some (div s.frequency).toUInt8
  | .inb => Programmed s.speaker s.y
  | .gate => Programmed s.speaker s.y ∧ s.tmp &&& 3 = s.speaker.gate &&& 3
  | .wait => Programmed s.speaker s.y ∧ s.speaker.gate &&& 3 = 3
  | _ => True

/-- The timer interrupts among the events. -/
def timerInterrupts (es : List Event) : Nat :=
  es.countP fun e => match e with
    | .tick => true
    | .run _ => false

/-- After `k` rounds and `n` timer interrupts since the counter showed `ticks`. The counter and
`val` are those numbers of interrupts in 32 bits. -/
structure Playing (ticks : Int32) (n k : Nat) (s : World) : Prop where
  turn : s.y = k % 5
  counted : s.ticks = ticks + Int32.ofNat n
  paced : 100 * k ≤ n
  begun : s.place ≠ .getVal → ∃ i, 100 * k ≤ i ∧ i ≤ n ∧ s.val = ticks + Int32.ofNat i
  written : timerBytes s.written = tune k ++ (note (k % 5)).take (sent s.place)
  phase : Phase s

/-! ## One event -/

theorem inb61_gate (s : Speaker) (status : UInt8) : s.inb61 status &&& 3 = s.gate &&& 3 := by
  apply UInt8.toNat_inj.mp
  have hhigh : (0xFC : UInt8).toNat &&& (3 : UInt8).toNat = 0 := by decide
  have hlow : (3 : UInt8).toNat &&& (3 : UInt8).toNat = (3 : UInt8).toNat := Nat.and_self _
  rw [Speaker.inb61, UInt8.toNat_and, UInt8.toNat_or, UInt8.toNat_and, UInt8.toNat_and,
    Nat.and_or_distrib_right, Nat.and_assoc, hhigh, Nat.and_zero, Nat.zero_or, Nat.and_assoc, hlow]

theorem or_three_and_three (w : UInt8) : (w ||| 3) &&& 3 = 3 := by
  apply UInt8.toNat_inj.mp
  rw [UInt8.toNat_and, UInt8.toNat_or]
  apply Nat.eq_of_testBit_eq
  intro i
  rw [Nat.testBit_and, Nat.testBit_or]
  cases (3 : UInt8).toNat.testBit i <;> simp

theorem tune_succ (k : Nat) : tune (k + 1) = tune k ++ note (k % 5) := by
  rw [tune, List.range_succ, List.flatMap_append, List.flatMap_singleton, tune]

theorem timerBytes_append (written : List (UInt16 × UInt8)) (w : UInt16 × UInt8) :
    timerBytes (written ++ [w]) = timerBytes written ++ timerBytes [w] := List.filter_append _ _

/-- The two bytes of a divisor make it up. -/
theorem divisor_bytes {y : Nat} (hy : y < 5) :
    (div (sounds.getD y 0)).toUInt8.toNat + 256 * (div (sounds.getD y 0) >>> 8).toUInt8.toNat =
      1193180 / (sounds.getD y 0).toNat := by
  match y, hy with
  | 0, _ => decide
  | 1, _ => decide
  | 2, _ => decide
  | 3, _ => decide
  | 4, _ => decide

/-- When the difference in 32 bits has reached a hundred, so many interrupts have come, also
where the counter has wrapped in between. -/
theorem hundred_of_difference {ticks : Int32} {i n : Nat} (hle : i ≤ n)
    (h : ¬ ticks + Int32.ofNat n - (ticks + Int32.ofNat i) < 100) : i + 100 ≤ n := by
  by_contra hfew
  have hdifference : ticks + Int32.ofNat n - (ticks + Int32.ofNat i) = Int32.ofNat (n - i) := by
    rw [Int32.sub_eq_iff_eq_add, Int32.add_comm (Int32.ofNat (n - i)), Int32.add_assoc,
      ← Int32.ofNat_add, Nat.add_sub_of_le hle]
  have hvalue : (Int32.ofNat (n - i)).toInt = ((n - i : Nat) : Int) := Int32.toInt_ofNat_of_lt (by omega)
  have hhundred : (100 : Int32).toInt = 100 := by decide
  rw [hdifference, Int32.lt_iff_toInt_lt, hvalue, hhundred] at h
  omega

variable {ticks : Int32} {n k : Nat} {s : World}

theorem Playing.tick (h : Playing ticks n k s) : Playing ticks (n + 1) k (step s .tick) where
  turn := h.turn
  counted := by
    show s.ticks + 1 = ticks + Int32.ofNat (n + 1)
    rw [h.counted, Int32.ofNat_add, ← Int32.add_assoc]
    rfl
  paced := by
    have hpaced := h.paced
    omega
  begun hplace := by
    obtain ⟨i, hlow, hhigh, hval⟩ := h.begun hplace
    exact ⟨i, hlow, by omega, hval⟩
  written := h.written
  phase := h.phase

theorem count_first {s : Speaker} (haccess : s.access = 3) (hlow : s.low = none) (w : UInt8) :
    s.count w = { s with low := some w } := by
  rw [Speaker.count, if_neg (by omega), if_neg (by omega), hlow]

theorem count_second {s : Speaker} {l : UInt8} (haccess : s.access = 3) (hlow : s.low = some l)
    (w : UInt8) : s.count w = { s with low := none, reload := l.toNat + 256 * w.toNat } := by
  rw [Speaker.count, if_neg (by omega), if_neg (by omega), hlow]

/-- A byte for the timer. -/
theorem timerBytes_timer {written : List (UInt16 × UInt8)} {port : UInt16} {w : UInt8}
    (hport : port ≠ 0x61) : timerBytes (written ++ [(port, w)]) = timerBytes written ++ [(port, w)] := by
  rw [timerBytes_append]
  exact congrArg (timerBytes written ++ ·) (List.filter_cons_of_pos (decide_eq_true hport))

theorem timerBytes_gate (written : List (UInt16 × UInt8)) (w : UInt8) :
    timerBytes (written ++ [(0x61, w)]) = timerBytes written := by
  rw [timerBytes_append]
  exact List.append_nil _

/-- An access of the process ends a round, or stays in it. -/
theorem Playing.access (h : Playing ticks n k s) (status : UInt8) :
    ∃ k', Playing ticks n k' (access s status) := by
  obtain ⟨hturn, hcounted, hpaced, hbegun, hwritten, hphase⟩ := h
  have hy : s.y < 5 := by omega
  unfold Phase at hphase
  unfold Sound.access
  split <;> rename_i hplace
  all_goals simp only [hplace] at hphase hwritten hbegun
  · exact ⟨k, hturn, hcounted, hpaced, fun _ => ⟨n, hpaced, Nat.le_refl _, hcounted⟩, hwritten, trivial⟩
  · refine ⟨k, hturn, hcounted, hpaced, fun _ => hbegun (by decide), ?_, rfl, rfl, rfl⟩
    show timerBytes (s.written ++ [((0x43 : UInt16), 0xb6)]) = _
    rw [timerBytes_timer (by decide), hwritten, List.append_assoc]
    rfl
  · obtain ⟨haccess, hmode, hlow⟩ := hphase
    have hcount : s.speaker.outb 0x42 (div s.frequency).toUInt8 =
        { s.speaker with low := some (div s.frequency).toUInt8 } :=
      count_first haccess hlow _
    refine ⟨k, hturn, hcounted, hpaced, fun _ => hbegun (by decide), ?_, ?_⟩
    · show timerBytes (s.written ++ [((0x42 : UInt16), (div s.frequency).toUInt8)]) = _
      rw [timerBytes_timer (by decide), hwritten, List.append_assoc, World.frequency, hturn]
      rfl
    · simp only [Phase, World.write, hcount]
      exact ⟨haccess, hmode, rfl⟩
  · obtain ⟨haccess, hmode, hlow⟩ := hphase
    have hcount : s.speaker.outb 0x42 (div s.frequency >>> 8).toUInt8 =
        { s.speaker with
          low := none, reload := 1193180 / (sounds.getD s.y 0).toNat } := by
      rw [← divisor_bytes hy]
      exact count_second haccess hlow _
    refine ⟨k, hturn, hcounted, hpaced, fun _ => hbegun (by decide), ?_, ?_⟩
    · show timerBytes (s.written ++ [((0x42 : UInt16), (div s.frequency >>> 8).toUInt8)]) = _
      rw [timerBytes_timer (by decide), hwritten, List.append_assoc, World.frequency, hturn]
      rfl
    · simp only [Phase, World.write, hcount]
      exact ⟨haccess, hmode, rfl, rfl⟩
  · exact ⟨k, hturn, hcounted, hpaced, fun _ => hbegun (by decide), hwritten, hphase, inb61_gate _ _⟩
  · obtain ⟨hprogrammed, hgate⟩ := hphase
    split
    · refine ⟨k, hturn, hcounted, hpaced, fun _ => hbegun (by decide), ?_, ?_⟩
      · show timerBytes (s.written ++ [(0x61, s.tmp ||| 3)]) = _
        rw [timerBytes_gate]
        exact hwritten
      · refine ⟨⟨hprogrammed.access, hprogrammed.mode, hprogrammed.low, hprogrammed.reload⟩, ?_⟩
        show (s.tmp ||| 3) &&& 3 &&& 3 = 3
        rw [or_three_and_three]
        rfl
    · next hset =>
      refine ⟨k, hturn, hcounted, hpaced, fun _ => hbegun (by decide), hwritten, hprogrammed, ?_⟩
      show s.speaker.gate &&& 3 = 3
      rw [← hgate, not_not.mp hset, or_three_and_three]
  · obtain ⟨i, hlow, hhigh, hval⟩ := hbegun (by decide)
    split
    · exact ⟨k, hturn, hcounted, hpaced, fun _ => ⟨i, hlow, hhigh, hval⟩, by rw [hplace]; exact hwritten,
        by simp only [Phase, hplace]; exact hphase⟩
    · next hover =>
      rw [hcounted, hval] at hover
      have hwaited := hundred_of_difference hhigh hover
      refine ⟨k + 1, ?_, hcounted, by omega, fun h => absurd rfl h, ?_, trivial⟩
      · show (if s.y + 1 < 5 then s.y + 1 else 0) = (k + 1) % 5
        split <;> omega
      · show timerBytes s.written = tune (k + 1) ++ []
        rw [hwritten, tune_succ, List.append_nil]
        rfl

theorem timerInterrupts_cons (e : Event) (es : List Event) :
    timerInterrupts (e :: es) = timerInterrupts es + timerInterrupts [e] := by
  rw [← List.singleton_append, timerInterrupts, List.countP_append, Nat.add_comm]
  rfl

theorem playing_step (e : Event) (h : ∃ k, Playing ticks n k s) :
    ∃ k, Playing ticks (n + timerInterrupts [e]) k (step s e) := by
  obtain ⟨k, h⟩ := h
  cases e with
  | tick => exact ⟨k, h.tick⟩
  | run status => exact h.access status

theorem playing_start (ticks : Int32) (speaker : Speaker) : Playing ticks 0 0 (start ticks speaker) where
  turn := rfl
  counted := (Int32.add_zero ticks).symm
  paced := Nat.le_refl _
  begun h := absurd rfl h
  written := rfl
  phase := trivial

/-- Whatever the timer was left at and wherever the ticks come, the timer gets the notes of the
tune one after the other, at most one for every hundred timer interrupts, and while the process
waits the speaker is on with the frequency of its round. -/
theorem run_playing (ticks : Int32) (speaker : Speaker) (es : List Event) :
    ∃ k, Playing ticks (timerInterrupts es) k (es.foldl step (start ticks speaker)) := by
  have hrun : ∀ n s, (∃ k, Playing ticks n k s) →
      ∃ k, Playing ticks (n + timerInterrupts es) k (es.foldl step s) := by
    induction es with
    | nil => exact fun n s h => h
    | cons e es ih =>
      intro n s h
      rw [timerInterrupts_cons, Nat.add_comm (timerInterrupts es), ← Nat.add_assoc]
      exact ih _ (step s e) (playing_step e h)
  have hall := hrun 0 _ ⟨0, playing_start ticks speaker⟩
  rwa [Nat.zero_add] at hall

end PaskakasaOS.Kernel.Sound
