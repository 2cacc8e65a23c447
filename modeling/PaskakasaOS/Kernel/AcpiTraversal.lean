import PaskakasaOS.Lib.ThroughFirst
import PaskakasaOS.Kernel.AcpiCoverage

/-!
# Which tables the walk over a root table visits

Both root tables are walked entry by entry, up to the first table with signature
`APIC`. The traversals below are those of `parse_rsdt` and `parse_xsdt` with all they do
to a listed table replaced by a note of its address, so that what remains is what they
read of the root table itself.
-/
namespace PaskakasaOS.Kernel.AcpiTraversal

open Lib.ByteMemory Lib.AccessTrace Lib.AccessTrace.Traced Lib.ThroughFirst Acpi AcpiCoverage

/-! ## The loop over the entries -/

/-- The loop from entry `i` on with `rest` rounds to go. `entry` reads the address of a
table and `visit` handles the table; its result is `some` behind the MADT. -/
def rounds (entry : Nat → Traced Nat) (visit : Nat → Traced (Option Apic)) :
    Nat → Nat → Apic → Traced Apic
  | 0, _, apic => pure apic
  | rest + 1, i, apic => do
    let table ← entry i
    match ← visit table with
    | some apic => pure apic
    | none => rounds entry visit rest (i + 1) apic

/-- `visit`, with its accesses replaced by a note of the table. -/
def notedVisit (visit : Nat → Traced (Option Apic)) (table : Nat) : Traced (Option Apic) :=
  noted table (visit table)

/-- The loop does not go on behind the table. -/
def stops (visit : Nat → Traced (Option Apic)) (table : Nat) : Bool :=
  match (visit table).result with
  | some none => false
  | _ => true

section Rounds

variable {entry : Nat → Traced Nat} {visit : Nat → Traced (Option Apic)} {addr : Nat → Nat}

theorem stops_eq_false_iff {table : Nat} :
    stops visit table = false ↔ (visit table).result = some none := by
  rw [stops]
  split
  · exact iff_of_true rfl ‹_›
  · exact iff_of_false Bool.noConfusion ‹_›

/-- The traversal reads the entries up to the first table that stops it, and notes each
table behind its entry. -/
theorem rounds_noted_accesses (hentry : ∀ i, (entry i).result = some (addr i)) (rest i : Nat)
    (apic : Apic) : (rounds entry (notedVisit visit) rest i apic).accesses =
      (throughFirst (fun j => stops visit (addr j)) (List.range' i rest)).flatMap
        fun j => (entry j).accesses ++ [.grant (addr j)] := by
  induction rest generalizing i with
  | zero => rfl
  | succ rest ih =>
    rw [rounds, bind_some (hentry i), List.range'_succ, throughFirst]
    cases hvisit : (visit (addr i)).result with
    | none =>
      have hstop : stops visit (addr i) = true := by rw [stops, hvisit]
      rw [if_pos hstop, bind_none (by exact hvisit), List.flatMap_singleton]
      rfl
    | some r =>
      rw [bind_some (by exact hvisit)]
      cases r with
      | none =>
        have hgo : stops visit (addr i) = false := stops_eq_false_iff.mpr hvisit
        rw [if_neg (by rw [hgo]; exact Bool.noConfusion), List.flatMap_cons, List.append_assoc, ← ih]
        rfl
      | some apic' =>
        have hstop : stops visit (addr i) = true := by rw [stops, hvisit]
        rw [if_pos hstop, List.flatMap_singleton]
        show _ ++ ([_] ++ []) = _
        rw [List.append_nil]

/-- The tables noted, in order. -/
def notes (es : List Access) : List Nat := (after [] es).reverse

theorem after_visits (hread : ∀ i, ReadOnly (entry i).accesses) (js granted : List Nat) :
    after granted (js.flatMap fun j => (entry j).accesses ++ [.grant (addr j)]) =
      (js.map addr).reverse ++ granted := by
  induction js generalizing granted with
  | nil => rfl
  | cons j js ih =>
    rw [List.flatMap_cons, after_append, after_append, (hread j).after, ih, List.map_cons,
      List.reverse_cons, List.append_assoc]
    rfl

theorem touches_visits {b : Nat} {js : List Nat} :
    Touches (js.flatMap fun j => (entry j).accesses ++ [.grant (addr j)]) b ↔
      ∃ j ∈ js, Touches (entry j).accesses b := by
  induction js with
  | nil => exact iff_of_false touches_nil fun ⟨_, hj, _⟩ => List.not_mem_nil hj
  | cons j js ih =>
    rw [List.flatMap_cons, touches_append, touches_append, ih, List.exists_mem_cons_iff,
      or_iff_left not_touches_grant]

end Rounds

/-! ## The RSDT -/

/-- `rsdt->sdt_addresses[sdt_index]` -/
def rsdtEntry (m : Memory) (rsdt i : Nat) : Traced Nat := load 4 m (rsdt + 36 + 4 * i)

theorem rsdtEntry_result (m : Memory) (rsdt i : Nat) :
    (rsdtEntry m rsdt i).result = some (rsdtTable m rsdt i) := rfl

/-- What `parse_rsdt` does to a table. -/
def visitRsdtTable (m : Memory) (fuel : Nat) (apic : Apic) (table : Nat) : Traced (Option Apic) := do
  let differs ← strcmp m table apicSignature
  if differs = 0 then do
    let apic ← parseMadt m table fuel apic
    pure (some apic)
  else pure none

/-- The end of a round: the loop is left behind the MADT. -/
theorem visitRsdtTable_bind (m : Memory) (fuel table : Nat) (apic : Apic) (rest : Traced Apic) :
    (strcmp m table apicSignature >>= fun differs =>
      if differs = 0 then parseMadt m table fuel apic else rest) =
      visitRsdtTable m fuel apic table >>= fun visited =>
        match visited with
        | some apic => pure apic
        | none => rest := by
  rw [visitRsdtTable, bind_assoc]
  congr 1
  funext differs
  by_cases hdiffers : differs = 0
  · rw [if_pos hdiffers, if_pos hdiffers, bind_assoc]
    simp only [pure_bind, bind_pure]
  · rw [if_neg hdiffers, if_neg hdiffers, pure_bind]

/-- `parse_rsdt` with its visits as a parameter. -/
def parseRsdtWith (visit : Nat → Traced (Option Apic)) (m : Memory) (rsdt : Nat) (apic : Apic) :
    Traced Apic :=
  rounds (rsdtEntry m rsdt) visit 25 0 apic

theorem parseRsdt_eq_with (m : Memory) (rsdt fuel : Nat) (apic : Apic) :
    parseRsdt m rsdt fuel apic = parseRsdtWith (visitRsdtTable m fuel apic) m rsdt apic := by
  have hloop : ∀ rest i, rsdtLoop m rsdt fuel rest i apic =
      rounds (rsdtEntry m rsdt) (visitRsdtTable m fuel apic) rest i apic := by
    intro rest
    induction rest with
    | zero => exact fun _ => rfl
    | succ rest ih =>
      intro i
      rw [rsdtLoop, rounds, rsdtEntry]
      congr 1
      funext table
      rw [ih]
      exact visitRsdtTable_bind m fuel table apic _
  exact hloop 25 0

theorem visitRsdtTable_stops_iff {m : Memory} {fuel table : Nat} {apic : Apic} :
    stops (visitRsdtTable m fuel apic) table ↔ IsAt m table apicSignature := by
  have hgo : (visitRsdtTable m fuel apic table).result = some none ↔
      ¬ IsAt m table apicSignature := by
    rw [visitRsdtTable, result_bind, strcmp_result, Option.bind_some]
    by_cases hapic : IsAt m table apicSignature
    · rw [if_pos hapic, if_pos rfl, result_bind]
      refine iff_of_false (fun h => ?_) (not_not.mpr hapic)
      obtain ⟨apic', _, hnone⟩ := Option.bind_eq_some_iff.mp h
      exact absurd (Option.some.inj hnone) (Option.some_ne_none apic')
    · rw [if_neg hapic, if_neg one_ne_zero]
      exact iff_of_true rfl hapic
  rw [← not_iff_not, Bool.not_eq_true, stops_eq_false_iff, hgo]

/-- The number of entries that the header of an RSDT declares. -/
def rsdtCount (m : Memory) (rsdt : Nat) : Nat := (readLE 4 m (rsdt + 4) - 36) / 4

/-- The traversal reads the first `k` of the declared entries and visits each table behind
its entry; none before the last is an MADT, and if one is declared, one is visited. -/
def RsdtTraversed (m : Memory) (rsdt fuel : Nat) (apic : Apic) : Prop :=
  ∃ k ≤ rsdtCount m rsdt,
    (parseRsdtWith (notedVisit (visitRsdtTable m fuel apic)) m rsdt apic).accesses =
      ((List.range k).flatMap fun i =>
        [.read (rsdt + 36 + 4 * i) 4, .grant (rsdtTable m rsdt i)]) ∧
    (∀ i, i + 1 < k → ¬ IsAt m (rsdtTable m rsdt i) apicSignature) ∧
    ((∃ i < rsdtCount m rsdt, IsAt m (rsdtTable m rsdt i) apicSignature) →
      ∃ i < k, IsAt m (rsdtTable m rsdt i) apicSignature)

theorem length_rounds (m : Memory) (rsdt k : Nat) : ((List.range k).flatMap fun i =>
    [Access.read (rsdt + 36 + 4 * i) 4, .grant (rsdtTable m rsdt i)]).length = 2 * k := by
  induction k with
  | zero => rfl
  | succ k ih =>
    rw [List.range_succ, List.flatMap_append, List.length_append, ih]
    rfl

/-- The 25 rounds are right exactly when one of the tables they visit is the MADT and is
declared, or all of them are declared and no MADT is. -/
theorem rsdt_traversed_iff (m : Memory) (rsdt fuel : Nat) (apic : Apic) :
    RsdtTraversed m rsdt fuel apic ↔
      (∃ i < rsdtCount m rsdt, i < 25 ∧ IsAt m (rsdtTable m rsdt i) apicSignature) ∨
        25 ≤ rsdtCount m rsdt ∧
          ∀ i < rsdtCount m rsdt, ¬ IsAt m (rsdtTable m rsdt i) apicSignature := by
  obtain ⟨k, hk, hvisited, hbefore, hlast⟩ := throughFirst_range'
    (fun j => stops (visitRsdtTable m fuel apic) (rsdtTable m rsdt j)) 0 25
  simp only [Nat.zero_add, visitRsdtTable_stops_iff] at hbefore hlast
  have htrace : (parseRsdtWith (notedVisit (visitRsdtTable m fuel apic)) m rsdt apic).accesses =
      ((List.range k).flatMap fun i =>
        [.read (rsdt + 36 + 4 * i) 4, .grant (rsdtTable m rsdt i)]) := by
    rw [parseRsdtWith, rounds_noted_accesses (rsdtEntry_result m rsdt), hvisited,
      List.range_eq_range']
    rfl
  have hcase : RsdtTraversed m rsdt fuel apic ↔ k ≤ rsdtCount m rsdt ∧
      ((∃ i < rsdtCount m rsdt, IsAt m (rsdtTable m rsdt i) apicSignature) →
        ∃ i < k, IsAt m (rsdtTable m rsdt i) apicSignature) := by
    rw [RsdtTraversed, htrace]
    constructor
    · intro h
      obtain ⟨k', hk', heq, _, hfound⟩ := h
      have hlength := congrArg List.length heq
      rw [length_rounds, length_rounds] at hlength
      obtain rfl : k = k' := by omega
      exact ⟨hk', hfound⟩
    · exact fun h => ⟨k, h.1, rfl, hbefore, h.2⟩
  rw [hcase]
  constructor
  · intro h
    obtain ⟨hdeclared, hfound⟩ := h
    by_cases hall : ∃ i < rsdtCount m rsdt, IsAt m (rsdtTable m rsdt i) apicSignature
    · obtain ⟨i, hi, hapic⟩ := hfound hall
      exact Or.inl ⟨i, by omega, by omega, hapic⟩
    · have hnone : ∀ i < rsdtCount m rsdt, ¬ IsAt m (rsdtTable m rsdt i) apicSignature :=
        fun i hi hapic => hall ⟨i, hi, hapic⟩
      refine Or.inr ⟨?_, hnone⟩
      by_contra hshort
      obtain ⟨j, rfl, hapic⟩ := hlast (by omega)
      exact hnone j (by omega) hapic
  · intro h
    rcases h with ⟨i, hi, hi25, hapic⟩ | ⟨hmany, hnone⟩
    · -- the walk has stopped at entry `i` at the latest
      have hle : k ≤ i + 1 := by
        by_contra hlt
        exact hbefore i (by omega) hapic
      refine ⟨by omega, fun _ => ?_⟩
      by_cases hk25 : k < 25
      · obtain ⟨j, rfl, hj⟩ := hlast hk25
        exact ⟨j, Nat.lt_succ_self j, hj⟩
      · exact ⟨i, by omega, hapic⟩
    · exact ⟨by omega, fun ⟨i, hi, hapic⟩ => absurd hapic (hnone i hi)⟩

/-- An RSDT at `0x7FE2000` that declares no entry. -/
def emptyRsdt : Memory := fun a => if a = 0x7FE2000 + 4 then 36 else 0

theorem not_rsdt_traversed : ¬ ∀ (m : Memory) (rsdt fuel : Nat) (apic : Apic),
    36 ≤ readLE 4 m (rsdt + 4) → RsdtTraversed m rsdt fuel apic := by
  intro h
  obtain ⟨k, hk, htrace, _⟩ := h emptyRsdt 0x7FE2000 0 ⟨0, 0⟩ (by decide)
  have hnone : rsdtCount emptyRsdt 0x7FE2000 = 0 := by decide
  obtain rfl : k = 0 := by omega
  exact absurd htrace (by decide)

/-! ## The XSDT -/

/-- `xsdt->sdt_addresses[sdt_index]`, with its halves swapped. -/
def xsdtEntry (m : Memory) (xsdt i : Nat) : Traced Nat := do
  let _ ← load 8 m (xsdt + 40 + 8 * i)
  pure (xsdtTable m xsdt i)

/-- What `parse_xsdt` does to a table. -/
def visitXsdtTable (m : Memory) (fuel : Nat) (apic : Apic) (table : Nat) : Traced (Option Apic) := do
  grant table
  print m table
  visitRsdtTable m fuel apic table

/-- `parse_xsdt` with its visits as a parameter. -/
def parseXsdtWith (visit : Nat → Traced (Option Apic)) (m : Memory) (xsdt : Nat) (apic : Apic) :
    Traced Apic := do
  let length ← load 4 m (xsdt + 4)
  let _ ← verifyChecksum m xsdt length
  let length ← load 4 m (xsdt + 4)
  rounds (xsdtEntry m xsdt) visit (entryCount length) 0 apic

theorem parseXsdt_eq_with (m : Memory) (xsdt fuel : Nat) (apic : Apic) :
    parseXsdt m xsdt fuel apic = parseXsdtWith (visitXsdtTable m fuel apic) m xsdt apic := by
  have hloop : ∀ rest i, xsdtLoop m xsdt fuel rest i apic =
      rounds (xsdtEntry m xsdt) (visitXsdtTable m fuel apic) rest i apic := by
    intro rest
    induction rest with
    | zero => exact fun _ => rfl
    | succ rest ih =>
      intro i
      rw [xsdtLoop, rounds, xsdtEntry, bind_assoc]
      congr 1
      funext _
      rw [pure_bind, visitXsdtTable, bind_assoc]
      dsimp only
      congr 1
      funext _
      rw [bind_assoc]
      congr 1
      funext _
      rw [ih]
      exact visitRsdtTable_bind m fuel _ apic _
  rw [parseXsdt, parseXsdtWith]
  simp only [hloop]

theorem visitXsdtTable_stops_eq_false_iff {m : Memory} {fuel table : Nat} {apic : Apic} :
    stops (visitXsdtTable m fuel apic) table = false ↔ Passed m table := by
  have hcompared : (visitRsdtTable m fuel apic table).result = some none ↔
      ¬ IsAt m table apicSignature := by
    rw [← stops_eq_false_iff, ← Bool.not_eq_true, visitRsdtTable_stops_iff]
  rw [stops_eq_false_iff, Passed, ← hcompared, ← print_returns_iff, visitXsdtTable, result_bind]
  show (print m table >>= fun _ => visitRsdtTable m fuel apic table).result = _ ↔ _
  rw [result_bind, Option.bind_eq_some_iff]
  exact ⟨fun ⟨x, hx, h⟩ => ⟨⟨x, hx⟩, h⟩, fun ⟨⟨x, hx⟩, h⟩ => ⟨x, hx, h⟩⟩

/-- The address that entry `i` of an XSDT lists, 36 bytes behind its start. -/
def listedTable (m : Memory) (xsdt i : Nat) : Nat := readLE 8 m (xsdt + 36 + 8 * i)

/-- The number of entries that the header of an XSDT declares. -/
def xsdtCount (m : Memory) (xsdt : Nat) : Nat := (readLE 4 m (xsdt + 4) - 36) / 8

/-- The traversal visits the listed tables up to the first MADT, and reads no byte of the
XSDT behind its length. -/
def XsdtTraversed (m : Memory) (xsdt fuel : Nat) (apic : Apic) : Prop :=
  let es := (parseXsdtWith (notedVisit (visitXsdtTable m fuel apic)) m xsdt apic).accesses
  notes es = throughFirst (fun table => IsAt m table apicSignature)
    ((List.range (xsdtCount m xsdt)).map (listedTable m xsdt)) ∧
  ∀ b, Touches es b → b < xsdt + readLE 4 m (xsdt + 4)

theorem swapUpperLower_toNat {low high : Nat} (hlow : low < 2 ^ 32) (hhigh : high < 2 ^ 32) :
    (swapUpperLower (UInt64.ofNat (low + 2 ^ 32 * high))).toNat = high + 2 ^ 32 * low := by
  have hvalue : (UInt64.ofNat (low + 2 ^ 32 * high)).toNat = low + 2 ^ 32 * high := by
    rw [UInt64.toNat_ofNat']
    exact Nat.mod_eq_of_lt (by omega)
  have hlower : (UInt64.ofNat (low + 2 ^ 32 * high)).toUInt32.toUInt64.toNat = low := by
    rw [UInt32.toNat_toUInt64, UInt64.toNat_toUInt32, hvalue]
    omega
  have hupper : (UInt64.ofNat (low + 2 ^ 32 * high) >>> 32).toUInt32.toUInt64.toNat = high := by
    have hshift : (UInt64.ofNat (low + 2 ^ 32 * high) >>> 32).toNat = (low + 2 ^ 32 * high) >>> 32 := by
      rw [UInt64.toNat_shiftRight, hvalue]
      rfl
    rw [UInt32.toNat_toUInt64, UInt64.toNat_toUInt32, hshift, Nat.shiftRight_eq_div_pow]
    omega
  have hraised : ((UInt64.ofNat (low + 2 ^ 32 * high)).toUInt32.toUInt64 <<< 32).toNat =
      low <<< 32 := by
    rw [UInt64.toNat_shiftLeft, hlower]
    refine Nat.mod_eq_of_lt ?_
    show low <<< 32 < 2 ^ 64
    rw [Nat.shiftLeft_eq]
    omega
  show ((UInt64.ofNat (low + 2 ^ 32 * high)).toUInt32.toUInt64 <<< 32 |||
    (UInt64.ofNat (low + 2 ^ 32 * high) >>> 32).toUInt32.toUInt64).toNat = _
  rw [UInt64.toNat_or, hraised, hupper, ← Nat.shiftLeft_add_eq_or_of_lt hhigh, Nat.shiftLeft_eq]
  omega

/-- The two readings of entry `i` agree when the low half of the next one does. -/
theorem xsdtTable_eq_iff (m : Memory) (xsdt i : Nat) :
    xsdtTable m xsdt i = listedTable m xsdt i ↔
      readLE 4 m (xsdt + 44 + 8 * i) = readLE 4 m (xsdt + 36 + 8 * i) := by
  have hread : readLE 8 m (xsdt + 40 + 8 * i) =
      readLE 4 m (xsdt + 40 + 8 * i) + 2 ^ 32 * readLE 4 m (xsdt + 44 + 8 * i) := by
    have hsplit := readLE_add 4 4 m (xsdt + 40 + 8 * i)
    rwa [show xsdt + 40 + 8 * i + 4 = xsdt + 44 + 8 * i by omega] at hsplit
  have hlisted : listedTable m xsdt i =
      readLE 4 m (xsdt + 36 + 8 * i) + 2 ^ 32 * readLE 4 m (xsdt + 40 + 8 * i) := by
    have hsplit := readLE_add 4 4 m (xsdt + 36 + 8 * i)
    rwa [show xsdt + 36 + 8 * i + 4 = xsdt + 40 + 8 * i by omega] at hsplit
  rw [xsdtTable, hread, swapUpperLower_toNat (readLE_lt 4 m _) (readLE_lt 4 m _), hlisted,
    Nat.add_right_cancel_iff]

section Xsdt

variable {m : Memory} {xsdt fuel : Nat} {apic : Apic}

/-- The entries the traversal reads. -/
def xsdtVisited (m : Memory) (xsdt fuel : Nat) (apic : Apic) : List Nat :=
  throughFirst (fun j => stops (visitXsdtTable m fuel apic) (xsdtTable m xsdt j))
    (List.range' 0 (entryCount (readLE 4 m (xsdt + 4))))

theorem xsdtEntry_accesses (i : Nat) :
    (xsdtEntry m xsdt i).accesses = [.read (xsdt + 40 + 8 * i) 8] := rfl

theorem xsdtEntry_result (i : Nat) : (xsdtEntry m xsdt i).result = some (xsdtTable m xsdt i) := rfl

/-- Behind the checksum, the traversal reads the length once more and then the entries. -/
theorem parseXsdtWith_accesses (m : Memory) (xsdt fuel : Nat) (apic : Apic) :
    (parseXsdtWith (notedVisit (visitXsdtTable m fuel apic)) m xsdt apic).accesses =
      [.read (xsdt + 4) 4] ++ ((verifyChecksum m xsdt (readLE 4 m (xsdt + 4))).accesses ++
        ([.read (xsdt + 4) 4] ++ (xsdtVisited m xsdt fuel apic).flatMap fun j =>
          (xsdtEntry m xsdt j).accesses ++ [.grant (xsdtTable m xsdt j)])) := by
  obtain ⟨sum, hsum⟩ := (verifyChecksum_spec m xsdt (readLE 4 m (xsdt + 4))).2.1
  have hlength : (load 4 m (xsdt + 4)).result = some (readLE 4 m (xsdt + 4)) := rfl
  rw [parseXsdtWith, bind_some hlength, bind_some hsum, bind_some hlength,
    rounds_noted_accesses xsdtEntry_result, xsdtVisited]
  rfl

theorem xsdt_notes (m : Memory) (xsdt fuel : Nat) (apic : Apic) :
    notes (parseXsdtWith (notedVisit (visitXsdtTable m fuel apic)) m xsdt apic).accesses =
      (xsdtVisited m xsdt fuel apic).map (xsdtTable m xsdt) := by
  have hread := (verifyChecksum_spec m xsdt (readLE 4 m (xsdt + 4))).1
  have hentries : ∀ j, ReadOnly (xsdtEntry m xsdt j).accesses := fun j => by
    rw [xsdtEntry_accesses]
    exact readOnly_read
  rw [parseXsdtWith_accesses, notes, after_append, after_append, after_append,
    readOnly_read.after, hread.after, readOnly_read.after, after_visits hentries, List.append_nil,
    List.reverse_reverse]

theorem xsdt_touches (m : Memory) (xsdt fuel b : Nat) (apic : Apic) :
    Touches (parseXsdtWith (notedVisit (visitXsdtTable m fuel apic)) m xsdt apic).accesses b ↔
      (xsdt + 4 ≤ b ∧ b < xsdt + 4 + 4) ∨ (xsdt ≤ b ∧ b < xsdt + readLE 4 m (xsdt + 4)) ∨
      ∃ j ∈ xsdtVisited m xsdt fuel apic, xsdt + 40 + 8 * j ≤ b ∧ b < xsdt + 40 + 8 * j + 8 := by
  have htouches := (verifyChecksum_spec m xsdt (readLE 4 m (xsdt + 4))).2.2 b
  rw [parseXsdtWith_accesses, touches_append, touches_append, touches_append, touches_read,
    htouches, touches_visits]
  simp only [xsdtEntry_accesses, touches_read]
  -- the length is read twice
  rw [or_left_comm, or_self_left, or_left_comm]

/-- The count of a table that is long enough for its header. -/
theorem entryCount_of_le {length : Nat} (h : 36 ≤ length) (hlt : length < 2 ^ 32) :
    entryCount length = (length - 36) / 8 := by
  have hsub : (UInt64.ofNat length - 36).toNat = length - 36 := by
    rw [UInt64.toNat_sub_of_le _ _ (by rw [UInt64.le_iff_toNat_le, UInt64.toNat_ofNat']; exact le_trans h (Nat.mod_eq_of_lt (by omega)).ge),
      UInt64.toNat_ofNat', Nat.mod_eq_of_lt (by omega)]
    rfl
  rw [entryCount, hsub]
  omega

/-- A shorter one counts as having almost `2 ^ 32` entries. -/
theorem entryCount_pos_of_lt {length : Nat} (h : length < 36) : 0 < entryCount length := by
  have hsub : (UInt64.ofNat length - 36).toNat = 2 ^ 64 - 36 + length := by
    rw [UInt64.toNat_sub, UInt64.toNat_ofNat', Nat.mod_eq_of_lt (show length < 2 ^ 64 by omega)]
    exact Nat.mod_eq_of_lt (show 2 ^ 64 - 36 + length < 2 ^ 64 by omega)
  rw [entryCount, hsub]
  omega

end Xsdt

/-- The table is long enough for its header, and for each entry that a walk over the listed
tables comes to, the low half of the address behind it is the same, the eight bytes from
offset 40 on lie in the table, and the walk can print its table. -/
def XsdtFits (m : Memory) (xsdt : Nat) : Prop :=
  36 ≤ readLE 4 m (xsdt + 4) ∧
    ∀ i < xsdtCount m xsdt, (∀ j < i, ¬ IsAt m (listedTable m xsdt j) apicSignature) →
      readLE 4 m (xsdt + 44 + 8 * i) = readLE 4 m (xsdt + 36 + 8 * i) ∧
      48 + 8 * i ≤ readLE 4 m (xsdt + 4) ∧
      (i + 1 < xsdtCount m xsdt →
        IsAt m (listedTable m xsdt i) apicSignature ∨ Ends m (listedTable m xsdt i))

section Long

variable {m : Memory} {xsdt fuel : Nat} {apic : Apic}

/-- What the walk over the listed tables decides at a table where the two agree. -/
theorem stops_iff_isAt {table : Nat} :
    (stops (visitXsdtTable m fuel apic) table ↔ IsAt m table apicSignature) ↔
      IsAt m table apicSignature ∨ Ends m table := by
  have hgo : stops (visitXsdtTable m fuel apic) table = false ↔ Passed m table :=
    visitXsdtTable_stops_eq_false_iff
  rw [← Bool.not_eq_true, Passed] at hgo
  tauto

/-- A table that is long enough for its header. -/
theorem xsdt_traversed_iff_of_le (hlong : 36 ≤ readLE 4 m (xsdt + 4)) :
    let n := xsdtCount m xsdt
    let visited := throughFirst
      (fun j => stops (visitXsdtTable m fuel apic) (xsdtTable m xsdt j)) (List.range' 0 n)
    (visited.map (xsdtTable m xsdt) =
        (throughFirst (fun j => decide (IsAt m (listedTable m xsdt j) apicSignature))
          (List.range' 0 n)).map (listedTable m xsdt) ∧
      ∀ b, (xsdt + 4 ≤ b ∧ b < xsdt + 4 + 4) ∨
          (xsdt ≤ b ∧ b < xsdt + readLE 4 m (xsdt + 4)) ∨
          (∃ j ∈ visited, xsdt + 40 + 8 * j ≤ b ∧ b < xsdt + 40 + 8 * j + 8) →
        b < xsdt + readLE 4 m (xsdt + 4)) ↔ XsdtFits m xsdt := by
  intro n visited
  have hvisited_of : visited.map (xsdtTable m xsdt) =
      (throughFirst (fun j => decide (IsAt m (listedTable m xsdt j) apicSignature))
        (List.range' 0 n)).map (listedTable m xsdt) →
      visited = throughFirst (fun j => decide (IsAt m (listedTable m xsdt j) apicSignature))
        (List.range' 0 n) := by
    intro hsame
    have hlengths := congrArg List.length hsame
    rw [List.length_map, List.length_map] at hlengths
    exact throughFirst_range'_eq hlengths
  constructor
  · intro h
    obtain ⟨hsame, hbytes⟩ := h
    have hvisited := hvisited_of hsame
    rw [throughFirst_map_eq_iff] at hsame
    simp only [Nat.zero_add, decide_eq_true_eq] at hsame
    refine ⟨hlong, fun i hi hbefore => ?_⟩
    obtain ⟨hvalue, hdecision⟩ := hsame i hi hbefore
    have hmem : i ∈ visited := by
      rw [hvisited, mem_throughFirst_range']
      refine ⟨Nat.zero_le i, by omega, fun j _ hj => ?_⟩
      rw [decide_eq_true_eq]
      exact hbefore j hj
    have hlast := hbytes (xsdt + 40 + 8 * i + 7) (Or.inr (Or.inr ⟨i, hmem, by omega, by omega⟩))
    refine ⟨(xsdtTable_eq_iff m xsdt i).mp hvalue, by omega, fun hnext => ?_⟩
    have hstop := hdecision hnext
    rwa [hvalue, stops_iff_isAt] at hstop
  · intro h
    have hsame : visited.map (xsdtTable m xsdt) =
        (throughFirst (fun j => decide (IsAt m (listedTable m xsdt j) apicSignature))
          (List.range' 0 n)).map (listedTable m xsdt) := by
      rw [throughFirst_map_eq_iff]
      simp only [Nat.zero_add, decide_eq_true_eq]
      intro i hi hbefore
      obtain ⟨hhalves, _, hends⟩ := h.2 i hi hbefore
      have hvalue := (xsdtTable_eq_iff m xsdt i).mpr hhalves
      refine ⟨hvalue, fun hnext => ?_⟩
      rw [hvalue, stops_iff_isAt]
      exact hends hnext
    have hvisited := hvisited_of hsame
    refine ⟨hsame, fun b hb => ?_⟩
    rcases hb with hb | hb | ⟨j, hj, hb⟩
    · omega
    · exact hb.2
    · rw [hvisited, mem_throughFirst_range'] at hj
      obtain ⟨_, hjn, hbefore⟩ := hj
      have hroom := (h.2 j (by omega) fun k hk => by
        have hgo := hbefore k (Nat.zero_le k) hk
        rwa [decide_eq_true_eq] at hgo).2.1
      omega

end Long

/-- The array is read four bytes behind where it is, with its halves swapped: the traversal
is right exactly when that makes no difference. -/
theorem xsdt_traversed_iff (m : Memory) (xsdt fuel : Nat) (apic : Apic) :
    XsdtTraversed m xsdt fuel apic ↔ XsdtFits m xsdt := by
  have hspec : throughFirst (fun table => decide (IsAt m table apicSignature))
      ((List.range (xsdtCount m xsdt)).map (listedTable m xsdt)) =
      (throughFirst (fun j => decide (IsAt m (listedTable m xsdt j) apicSignature))
        (List.range' 0 (xsdtCount m xsdt))).map (listedTable m xsdt) := by
    rw [throughFirst_map, List.range_eq_range']
    rfl
  rw [XsdtTraversed, xsdt_notes, hspec]
  simp only [xsdt_touches]
  by_cases hlong : 36 ≤ readLE 4 m (xsdt + 4)
  · have hcount : entryCount (readLE 4 m (xsdt + 4)) = xsdtCount m xsdt :=
      entryCount_of_le hlong (readLE_lt 4 m _)
    rw [xsdtVisited, hcount]
    exact xsdt_traversed_iff_of_le hlong
  · have hpos := entryCount_pos_of_lt (Nat.lt_of_not_le hlong)
    have hnone : xsdtCount m xsdt = 0 := by
      rw [xsdtCount]
      omega
    refine iff_of_false (fun h => ?_) fun h => hlong h.1
    have hempty := h.1
    rw [hnone, List.range'_zero, throughFirst, List.map_nil, List.map_eq_nil_iff, xsdtVisited,
      throughFirst_eq_nil_iff, List.range'_eq_nil_iff] at hempty
    omega

/-- An XSDT at `0x7FE2000` whose one entry lists a table at `0x7FE1000`. -/
def oneEntryXsdt : Memory := fun a =>
  if a = 0x7FE2000 + 4 then 44
  else if a = 0x7FE2000 + 37 then 0x10
  else if a = 0x7FE2000 + 38 then 0xFE
  else if a = 0x7FE2000 + 39 then 0x07
  else 0

/-- The entry is read from the eight bytes at offset 40, four of them behind the table. -/
theorem not_xsdt_traversed : ¬ ∀ (m : Memory) (xsdt fuel : Nat) (apic : Apic),
    XsdtTraversed m xsdt fuel apic := by
  intro h
  have hread : 0 ∈ xsdtVisited oneEntryXsdt 0x7FE2000 0 ⟨0, 0⟩ :=
    mem_throughFirst_range'.mpr ⟨Nat.le_refl 0, by decide, fun k _ hk => absurd hk (Nat.not_lt_zero k)⟩
  have hinside := (h oneEntryXsdt 0x7FE2000 0 ⟨0, 0⟩).2 (0x7FE2000 + 47)
    ((xsdt_touches oneEntryXsdt 0x7FE2000 0 (0x7FE2000 + 47) ⟨0, 0⟩).mpr
      (Or.inr (Or.inr ⟨0, hread, by omega, by omega⟩)))
  exact absurd hinside (by decide)

end PaskakasaOS.Kernel.AcpiTraversal
