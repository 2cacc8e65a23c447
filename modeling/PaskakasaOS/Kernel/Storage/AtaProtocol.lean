import Mathlib.Data.List.TakeWhile
import Mathlib.Tactic.IntervalCases
import PaskakasaOS.Kernel.Storage.AtaPio

/-!
# The drive at the other end of the ports

`read_sector` and the drive talk through the task file: the driver polls the
status until the busy bit is clear, then until the data request bit is set, and
takes 256 words. The second loop does not look at the busy bit any more.
-/
namespace PaskakasaOS.Kernel.Storage.AtaProtocol

open Lib.ByteMemory AtaPio

def FEATURES : UInt16 := 0x1F1
def SECTOR_COUNT : UInt16 := 0x1F2
def LBALOW : UInt16 := 0x1F3
def LBAMID : UInt16 := 0x1F4
def LBAHIGH : UInt16 := 0x1F5
def HEAD : UInt16 := 0x1F6
def COMMAND : UInt16 := 0x1F7

/-! ## The drive -/

/-- How a read command goes: the statuses that polls see meanwhile, and whether the drive
then offers the data or reports an error. -/
structure Answer where
  statuses : List UInt8
  ok : Bool

inductive Phase where
  | idle
  | pending (statuses : List UInt8) (ok slave : Bool) (sector words : Nat)
  | transfer (slave : Bool) (sector words done : Nat)
  | failed

/-- The task file, the state of the selected drive, and its answers to come. -/
structure Channel where
  registers : Registers
  sectorCount : UInt8
  features : UInt8
  phase : Phase
  answers : List Answer

/-- The words of a command; a count of 0 stands for 256 sectors. -/
def wordsOf (sectorCount : UInt8) : Nat := if sectorCount = 0 then 256 * 256 else 256 * sectorCount.toNat

/-- A drive that is idle takes a read command; bit 6 of `HEAD` asks for sector numbers,
without which this model has no sector, and bit 4 selects the slave. -/
def Channel.command (c : Channel) (val : UInt8) : Channel :=
  match c.phase, c.answers with
  | .idle, a :: rest =>
    if val = 0x20 then
      { c with
        phase :=
          if c.registers.head &&& 0x40 ≠ 0 then
            .pending a.statuses a.ok (c.registers.head &&& 0x10 ≠ 0) c.registers.sector
              (wordsOf c.sectorCount)
          else .failed
        answers := rest }
    else c
  | _, _ => c

def Channel.outb (c : Channel) (port : UInt16) (val : UInt8) : Channel :=
  if port = FEATURES then { c with features := val }
  else if port = SECTOR_COUNT then { c with sectorCount := val }
  else if port = LBALOW then { c with registers := { c.registers with lbaLow := val } }
  else if port = LBAMID then { c with registers := { c.registers with lbaMid := val } }
  else if port = LBAHIGH then { c with registers := { c.registers with lbaHigh := val } }
  else if port = HEAD then { c with registers := { c.registers with head := val } }
  else if port = COMMAND then c.command val
  else c

/-- What follows the statuses: the data request, or an error. -/
def settled (ok slave : Bool) (sector words : Nat) : Phase :=
  if ok then .transfer slave sector words 0 else .failed

/-- `inb(0x1F7)`; the bits are BSY 0x80, DRDY 0x40, DSC 0x10, DRQ 0x08 and ERR 0x01. -/
def Channel.inbStatus (c : Channel) : UInt8 × Channel :=
  match c.phase with
  | .idle => (0x50, c)
  | .pending (s :: statuses) ok slave sector words =>
    (s, { c with phase := .pending statuses ok slave sector words })
  | .pending [] ok slave sector words =>
    (if ok then 0x58 else 0x51, { c with phase := settled ok slave sector words })
  | .transfer .. => (0x58, c)
  | .failed => (0x51, c)

/-- `inw(0x1F0)`; without a data request there is no word to take. -/
def Channel.inwData (disks : Bool → Disk) (c : Channel) : Option (UInt16 × Channel) :=
  match c.phase with
  | .transfer slave sector words done =>
    let next := if done + 1 = words then Phase.idle else .transfer slave sector words (done + 1)
    some (dataWord (disks slave) sector (2 * done), { c with phase := next })
  | _ => none

/-! ## The driver -/

/-- `while (inb(0x1F7) & 0x80);` -/
def waitReady : Nat → Channel → Option Channel
  | 0, _ => none
  | fuel + 1, c =>
    let (status, c) := c.inbStatus
    if status &&& 0x80 ≠ 0 then waitReady fuel c else some c

/-- `while (!(inb(0x1F7) & 0x08));` -/
def waitData : Nat → Channel → Option Channel
  | 0, _ => none
  | fuel + 1, c =>
    let (status, c) := c.inbStatus
    if status &&& 0x08 = 0 then waitData fuel c else some c

/-- The first `n` rounds of the loop that takes the words. -/
def takeWords (disks : Bool → Disk) (c : Channel) (m : Memory) (data : Nat) :
    Nat → Option (Memory × Channel)
  | 0 => some (m, c)
  | n + 1 => do
    let (m, c) ← takeWords disks c m data n
    let i := 2 * n
    let (val, c) ← c.inwData disks
    let m := Function.update m (data + i) (val &&& 0xFF).toUInt8
    some (Function.update m (data + i + 1) ((val &&& 0xFF00) >>> 8).toUInt8, c)

/-- A call has returned, has taken a word that was not offered, or is still polling. -/
inductive Result where
  | done (m : Memory) (c : Channel)
  | unready
  | polling

/-- The `outb` calls in front of the loops. -/
def issue (c : Channel) (lba : UInt32) : Channel :=
  let sectorcount : UInt8 := 1
  let c := c.outb HEAD ((0xE0 : UInt32) ||| ((lba >>> 24) &&& 0xF)).toUInt8
  let c := c.outb SECTOR_COUNT sectorcount
  let c := c.outb LBALOW (lba &&& 0xFF).toUInt8
  let c := c.outb LBAMID ((lba >>> 8) &&& 0xFF).toUInt8
  let c := c.outb LBAHIGH ((lba >>> 16) &&& 0xFF).toUInt8
  c.outb COMMAND 0x20

/-- `read_sector`, port by port. -/
def readSectorPio (disks : Bool → Disk) (fuel : Nat) (c : Channel) (m : Memory) (data : Nat)
    (lba : UInt32) : Result :=
  match waitReady fuel (issue c lba) with
  | none => .polling
  | some c =>
    match waitData fuel c with
    | none => .polling
    | some c =>
      match takeWords disks c m data 256 with
      | none => .unready
      | some (m, c) => .done m (c.outb FEATURES 0x0)

/-! ## Selecting the sector -/

/-- The command goes to the first drive, whatever the comment in the source says. -/
theorem selectSector_head (lba : UInt32) :
    (selectSector lba).head &&& 0x40 ≠ 0 ∧ (selectSector lba).head &&& 0x10 = 0 := by
  have hmask : lba.toNat / 2 ^ 24 &&& 15 = lba.toNat / 2 ^ 24 % 2 ^ 4 :=
    Nat.and_two_pow_sub_one_eq_mod _ 4
  have hhead : (selectSector lba).head = UInt8.ofNat (0xE0 ||| lba.toNat / 2 ^ 24 % 2 ^ 4) := by
    apply UInt8.toNat_inj.mp
    simp only [selectSector, UInt32.toNat_toUInt8, UInt32.toNat_or, UInt32.toNat_and,
      UInt32.toNat_shiftRight, Nat.shiftRight_eq_div_pow, UInt32.toNat_ofNat, UInt8.toNat_ofNat']
    rw [show 24 % 2 ^ 32 % 32 = 24 by decide, show 15 % 2 ^ 32 = 15 by decide, hmask]
  have hlt : lba.toNat / 2 ^ 24 % 2 ^ 4 < 2 ^ 4 := Nat.mod_lt _ (by decide)
  rw [hhead]
  generalize lba.toNat / 2 ^ 24 % 2 ^ 4 = r at hlt ⊢
  interval_cases r <;> decide

variable {disks : Bool → Disk} {c : Channel} {m : Memory} {data fuel n sector words : Nat}
  {lba : UInt32} {a : Answer} {rest : List Answer} {statuses : List UInt8} {ok slave : Bool}

theorem issue_eq (hidle : c.phase = .idle) (hanswers : c.answers = a :: rest) (lba : UInt32) :
    issue c lba =
      { c with
        registers := selectSector lba
        sectorCount := 1
        phase := .pending a.statuses a.ok false (lba.toNat % 2 ^ 28) 256
        answers := rest } := by
  obtain ⟨hlba, hmaster⟩ := selectSector_head lba
  have hissue : issue c lba =
      Channel.command { c with registers := selectSector lba, sectorCount := 1 } 0x20 := rfl
  have hslave : decide ((selectSector lba).head &&& 0x10 ≠ 0) = false := by
    simp [hmaster]
  simp only [hissue, Channel.command, hidle, hanswers, if_true, if_pos hlba, hslave, selectSector_sector]
  rfl

/-! ## The two loops -/

def busy (status : UInt8) : Bool := status &&& 0x80 ≠ 0

def dataRequest (status : UInt8) : Bool := status &&& 0x08 ≠ 0

/-- Where a loop that polls until `p` fails leaves the drive. -/
def afterPolls (p : UInt8 → Bool) (statuses : List UInt8) (ok slave : Bool) (sector words : Nat) :
    Phase :=
  match statuses.dropWhile p with
  | [] => settled ok slave sector words
  | _ :: rest => .pending rest ok slave sector words

theorem waitReady_pending (hphase : c.phase = .pending statuses ok slave sector words)
    (hfuel : statuses.length < fuel) :
    waitReady fuel c = some { c with phase := afterPolls busy statuses ok slave sector words } := by
  induction statuses generalizing fuel c with
  | nil =>
    obtain ⟨fuel, rfl⟩ : ∃ k, fuel = k + 1 := ⟨fuel - 1, by omega⟩
    simp only [waitReady, Channel.inbStatus, hphase, afterPolls, List.dropWhile_nil]
    cases ok <;> rfl
  | cons s statuses ih =>
    rw [List.length_cons] at hfuel
    obtain ⟨fuel, rfl⟩ : ∃ k, fuel = k + 1 := ⟨fuel - 1, by omega⟩
    simp only [waitReady, Channel.inbStatus, hphase]
    by_cases hbusy : s &&& 0x80 ≠ 0
    · have hskip : (s :: statuses).dropWhile busy = statuses.dropWhile busy :=
        List.dropWhile_cons_of_pos (by simp [busy, hbusy])
      rw [if_pos hbusy, ih rfl (by omega), afterPolls, afterPolls, hskip]
    · have hstop : (s :: statuses).dropWhile busy = s :: statuses :=
        List.dropWhile_cons_of_neg (by simpa [busy] using hbusy)
      rw [if_neg hbusy, afterPolls, hstop]

/-- An error is never followed by a data request. -/
theorem waitData_failed (hphase : c.phase = .failed) : waitData fuel c = none := by
  induction fuel with
  | zero => rfl
  | succ fuel ih =>
    simp only [waitData, Channel.inbStatus, hphase]
    exact ih

theorem waitData_transfer {done : Nat} (hphase : c.phase = .transfer slave sector words done)
    (hfuel : 0 < fuel) : waitData fuel c = some c := by
  obtain ⟨fuel, rfl⟩ : ∃ k, fuel = k + 1 := ⟨fuel - 1, by omega⟩
  simp only [waitData, Channel.inbStatus, hphase]
  rfl

theorem waitData_settled (hphase : c.phase = settled ok slave sector words) (hfuel : 0 < fuel) :
    waitData fuel c = if ok then some c else none := by
  cases ok with
  | true => exact waitData_transfer hphase hfuel
  | false => exact waitData_failed hphase

theorem waitData_failing (hphase : c.phase = .pending statuses false slave sector words)
    (hquiet : ∀ s ∈ statuses, ¬ dataRequest s) : waitData fuel c = none := by
  induction statuses generalizing fuel c with
  | nil =>
    cases fuel with
    | zero => rfl
    | succ fuel =>
      have hfailed : waitData fuel { c with phase := settled false slave sector words } = none :=
        waitData_failed rfl
      simp only [waitData, Channel.inbStatus, hphase]
      exact hfailed
  | cons s statuses ih =>
    cases fuel with
    | zero => rfl
    | succ fuel =>
      have hs : s &&& 0x08 = 0 := by simpa [dataRequest] using hquiet s List.mem_cons_self
      simp only [waitData, Channel.inbStatus, hphase]
      rw [if_pos hs]
      exact ih rfl fun t ht => hquiet t (List.mem_cons_of_mem s ht)

theorem waitData_pending (hphase : c.phase = .pending statuses ok slave sector words)
    (hfuel : statuses.length < fuel) (hoffer : ok = true ∨ ∃ s ∈ statuses, dataRequest s) :
    waitData fuel c =
      some { c with
        phase := afterPolls (fun s => !dataRequest s) statuses ok slave sector words } := by
  induction statuses generalizing fuel c with
  | nil =>
    obtain ⟨fuel, rfl⟩ : ∃ k, fuel = k + 1 := ⟨fuel - 1, by omega⟩
    obtain rfl : ok = true := hoffer.resolve_right fun h => absurd h.choose_spec.1 List.not_mem_nil
    have hdata : ¬ (0x58 : UInt8) &&& 0x08 = 0 := by decide
    simp only [waitData, Channel.inbStatus, hphase, afterPolls, List.dropWhile_nil, if_true]
    rw [if_neg hdata]
  | cons s statuses ih =>
    rw [List.length_cons] at hfuel
    obtain ⟨fuel, rfl⟩ : ∃ k, fuel = k + 1 := ⟨fuel - 1, by omega⟩
    simp only [waitData, Channel.inbStatus, hphase]
    by_cases hdata : s &&& 0x08 = 0
    · have hquiet : ¬ dataRequest s := by simp [dataRequest, hdata]
      have hskip : (s :: statuses).dropWhile (fun s => !dataRequest s) =
          statuses.dropWhile (fun s => !dataRequest s) :=
        List.dropWhile_cons_of_pos (by simpa using hquiet)
      have hrest : ok = true ∨ ∃ t ∈ statuses, dataRequest t := by
        refine hoffer.imp_right fun ⟨t, ht, hdata'⟩ => ?_
        rcases List.mem_cons.mp ht with rfl | ht
        · exact absurd hdata' hquiet
        · exact ⟨t, ht, hdata'⟩
      rw [if_pos hdata, ih rfl (by omega) hrest]
      simp only [afterPolls, hskip]
    · have hdata' : dataRequest s := by simpa [dataRequest] using hdata
      have hstop : (s :: statuses).dropWhile (fun s => !dataRequest s) = s :: statuses :=
        List.dropWhile_cons_of_neg (by simpa using hdata')
      rw [if_neg hdata, afterPolls, hstop]

/-! ## Taking the words -/

theorem takeWords_pending (hphase : c.phase = .pending statuses ok slave sector words) (n : Nat) :
    takeWords disks c m data (n + 1) = none := by
  induction n with
  | zero => simp [takeWords, Channel.inwData, hphase]
  | succ n ih =>
    rw [takeWords, ih]
    rfl

/-- What a transfer of one sector has come to after `n` words. -/
theorem takeWords_transfer (hphase : c.phase = .transfer slave sector 256 0) (hn : n ≤ 256) :
    takeWords disks c m data n =
      some (readWords (disks slave) sector m data n,
        { c with phase := if n = 256 then .idle else .transfer slave sector 256 n }) := by
  induction n with
  | zero =>
    rw [takeWords, readWords, if_neg (by decide), ← hphase]
  | succ n ih =>
    have hbefore : n ≠ 256 := by omega
    rw [takeWords, ih (by omega)]
    simp only [if_neg hbefore, Channel.inwData, Option.bind_eq_bind, Option.bind_some, readWords]

/-! ## A call -/

/-- After the first poll that finds the drive not busy, the data request bit is not set
before there are data. -/
def Settles (statuses : List UInt8) : Prop :=
  ∀ s ∈ (statuses.dropWhile busy).tail, ¬ dataRequest s

instance (statuses : List UInt8) : Decidable (Settles statuses) :=
  List.decidableBAll _ _

/-- The drive between two calls. -/
def afterRead (c : Channel) (lba : UInt32) (rest : List Answer) : Channel :=
  { c with
    registers := selectSector lba
    sectorCount := 1
    features := 0
    phase := .idle
    answers := rest }

/-- Where the second loop leaves a drive that the first one has left. -/
theorem waitData_afterPolls (hphase : c.phase = afterPolls busy statuses ok slave sector words)
    (hfuel : statuses.length < fuel) :
    (Settles statuses → waitData fuel c =
        if ok then some { c with phase := .transfer slave sector words 0 } else none) ∧
      (¬ Settles statuses → ∃ rest, waitData fuel c =
        some { c with phase := .pending rest ok slave sector words }) := by
  have hlen : (statuses.dropWhile busy).length ≤ statuses.length :=
    (List.dropWhile_sublist busy).length_le
  unfold Settles
  rw [afterPolls] at hphase
  cases hrest : statuses.dropWhile busy with
  | nil =>
    rw [hrest] at hphase
    refine ⟨fun _ => ?_, fun h => absurd (fun s hs => absurd hs List.not_mem_nil) h⟩
    rw [waitData_settled hphase (by omega)]
    cases ok with
    | true =>
      rw [if_pos rfl, if_pos rfl]
      congr 1
      cases c
      simp only at hphase
      rw [hphase]
      rfl
    | false => rfl
  | cons s rest =>
    rw [hrest] at hphase hlen
    rw [List.length_cons] at hlen
    have hshort : rest.length < fuel := by omega
    rw [List.tail_cons]
    refine ⟨fun h => ?_, fun h => ?_⟩
    · have hdrop : rest.dropWhile (fun s => !dataRequest s) = [] :=
        List.dropWhile_eq_nil_iff.mpr fun t ht => by simpa using h t ht
      cases ok with
      | true =>
        rw [waitData_pending hphase hshort (Or.inl rfl), afterPolls, hdrop, if_pos rfl]
        rfl
      | false =>
        rw [waitData_failing hphase h]
        rfl
    · have hoffer : ∃ t ∈ rest, dataRequest t := by simpa using h
      rw [waitData_pending hphase hshort (Or.inr hoffer), afterPolls]
      cases hdrop : rest.dropWhile (fun s => !dataRequest s) with
      | nil =>
        refine absurd (fun t ht => ?_) h
        have hquiet := List.dropWhile_eq_nil_iff.mp hdrop t ht
        simpa using hquiet
      | cons t rest' => exact ⟨rest', rfl⟩

/-- Everything a call can do, given enough polls. -/
theorem readSectorPio_eq (hidle : c.phase = .idle) (hanswers : c.answers = a :: rest)
    (hfuel : a.statuses.length < fuel) :
    readSectorPio disks fuel c m data lba =
      if Settles a.statuses then
        if a.ok then .done (readSector (disks false) m data lba) (afterRead c lba rest) else .polling
      else .unready := by
  have hissue := issue_eq hidle hanswers lba
  have hready : waitReady fuel (issue c lba) = some { issue c lba with
      phase := afterPolls busy a.statuses a.ok false (lba.toNat % 2 ^ 28) 256 } :=
    waitReady_pending (congrArg Channel.phase hissue) hfuel
  rw [readSectorPio, hready]
  generalize hc' : ({ issue c lba with
    phase := afterPolls busy a.statuses a.ok false (lba.toNat % 2 ^ 28) 256 } : Channel) = c'
  have hphase : c'.phase = afterPolls busy a.statuses a.ok false (lba.toNat % 2 ^ 28) 256 := by
    rw [← hc']
  obtain ⟨hsettles, hunready⟩ := waitData_afterPolls hphase hfuel
  simp only
  by_cases h : Settles a.statuses
  · rw [hsettles h, if_pos h]
    cases hok : a.ok with
    | true =>
      have htake : takeWords disks { c' with phase := .transfer false (lba.toNat % 2 ^ 28) 256 0 } m
          data 256 = some (readWords (disks false) (lba.toNat % 2 ^ 28) m data 256,
            { c' with phase := .idle }) :=
        takeWords_transfer rfl (Nat.le_refl 256)
      rw [if_pos rfl, if_pos rfl]
      simp only [htake]
      rw [← hc', hissue, readSector, selectSector_sector]
      rfl
    | false => rfl
  · obtain ⟨rest', hpending⟩ := hunready h
    have htake : takeWords disks { c' with
        phase := .pending rest' a.ok false (lba.toNat % 2 ^ 28) 256 } m data 256 = none :=
      takeWords_pending rfl 255
    rw [hpending, if_neg h]
    simp only [htake]

/-! ## One call after the other -/

/-- Calls for a list of destinations and sectors. -/
def readSectors (disks : Bool → Disk) (fuel : Nat) : Channel → Memory → List (Nat × UInt32) → Result
  | c, m, [] => .done m c
  | c, m, (data, lba) :: requests =>
    match readSectorPio disks fuel c m data lba with
    | .done m c => readSectors disks fuel c m requests
    | .unready => .unready
    | .polling => .polling

/-- The calls as they are without the ports. -/
def readAll (disk : Disk) (m : Memory) (requests : List (Nat × UInt32)) : Memory :=
  requests.foldl (fun m r => readSector disk m r.1 r.2) m

/-- The drive offers the data, and not before the driver may look for them. -/
def Good (a : Answer) : Prop := Settles a.statuses ∧ a.ok = true

instance (a : Answer) : Decidable (Good a) := inferInstanceAs (Decidable (_ ∧ _))

/-- A sequence of calls returns exactly when each answer of the drive is a good one, and
has then read the sectors of the first drive as if there were no ports. -/
theorem readSectors_done_iff (hidle : c.phase = .idle) {requests : List (Nat × UInt32)}
    (hanswers : requests.length ≤ c.answers.length)
    (hfuel : ∀ a ∈ c.answers, a.statuses.length < fuel) :
    (∃ m' c', readSectors disks fuel c m requests = .done m' c' ∧
        m' = readAll (disks false) m requests ∧ c'.phase = .idle) ↔
      ∀ a ∈ c.answers.take requests.length, Good a := by
  induction requests generalizing c m with
  | nil =>
    refine iff_of_true ⟨m, c, rfl, rfl, hidle⟩ fun a ha => ?_
    exact absurd ha (by simp)
  | cons r requests ih =>
    obtain ⟨data, lba⟩ := r
    obtain ⟨a, rest, hc⟩ : ∃ a rest, c.answers = a :: rest := by
      cases h : c.answers with
      | nil => rw [h] at hanswers; cases hanswers
      | cons a rest => exact ⟨a, rest, rfl⟩
    rw [hc] at hanswers hfuel
    have hcall : readSectorPio disks fuel c m data lba = _ :=
      readSectorPio_eq hidle hc (hfuel a List.mem_cons_self)
    rw [readSectors, hcall, hc, List.length_cons, List.take_succ_cons, List.forall_mem_cons]
    by_cases hsettles : Settles a.statuses
    · by_cases hok : a.ok = true
      · -- the drive is idle again, with the remaining answers
        have hrest : (∃ m' c', readSectors disks fuel (afterRead c lba rest)
            (readSector (disks false) m data lba) requests = .done m' c' ∧
            m' = readAll (disks false) (readSector (disks false) m data lba) requests ∧
            c'.phase = .idle) ↔ ∀ a ∈ rest.take requests.length, Good a :=
          ih rfl (Nat.le_of_succ_le_succ hanswers) fun b hb => hfuel b (List.mem_cons_of_mem a hb)
        rw [if_pos hsettles, if_pos hok, and_iff_right (show Good a from ⟨hsettles, hok⟩)]
        exact hrest
      · rw [if_pos hsettles, if_neg hok]
        refine iff_of_false (fun h => ?_) fun h => hok h.1.2
        obtain ⟨_, _, hdone, _⟩ := h
        cases hdone
    · rw [if_neg hsettles]
      refine iff_of_false (fun h => ?_) fun h => hsettles h.1.1
      obtain ⟨_, _, hdone, _⟩ := h
      cases hdone

/-- A channel with an idle drive. -/
def sampleChannel (answers : List Answer) : Channel where
  registers := ⟨0, 0, 0, 0⟩
  sectorCount := 0
  features := 0
  phase := .idle
  answers := answers

/-- Two sectors, after some polls that find the drive busy. -/
theorem readSectors_done_iff_two :
    (∃ m' c', readSectors (fun _ _ => 7) 4 (sampleChannel [⟨[0xD0, 0xD0, 0x50], true⟩, ⟨[], true⟩])
        (fun _ => 0) [(0x1000, 0x800), (0x1200, 0x801)] = .done m' c' ∧
        m' = readAll (fun _ => 7) (fun _ => 0) [(0x1000, 0x800), (0x1200, 0x801)] ∧
        c'.phase = .idle) ↔
      ∀ a ∈ (sampleChannel [⟨[0xD0, 0xD0, 0x50], true⟩, ⟨[], true⟩]).answers.take 2, Good a :=
  readSectors_done_iff rfl (Nat.le_refl 2) (by simp [sampleChannel])

/-- A drive that turns busy again with the data request bit set is read too early. -/
example : ¬ Good ⟨[0x50, 0xD8], true⟩ := by decide

end PaskakasaOS.Kernel.Storage.AtaProtocol
