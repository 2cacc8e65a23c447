import PaskakasaOS.Kernel.AcpiCoverage

/-!
# The records of the MADT

`parse_rsdt` and `parse_xsdt` each have a loop over the records, which steps by the
length byte of each record. It ends, and stays in the table, exactly when no record that
starts in the table has length zero or is cut off by the end. On a table that is made
of whole records it finds the address of the last I/O APIC.
-/
namespace PaskakasaOS.Kernel.AcpiRecords

open Lib.ByteMemory Lib.AccessTrace Lib.AccessTrace.Traced Acpi AcpiCoverage

/-! ## The copy in `parse_xsdt` -/

/-- A record in the loop of `parse_xsdt`, which reads the address of an I/O APIC once
more to print it. -/
def readXsdtRecord (m : Memory) (entries : Nat) (apic : Apic) : Traced Apic := do
  let type ← load 1 m entries
  if type = 0 then do
    let _ ← load 1 m (entries + 2)
    pure apic
  else if type = 1 then do
    let _ ← load 4 m (entries + 4)
    let address ← load 4 m (entries + 4)
    pure { apic with ioApic := address }
  else pure apic

/-- The `while` in `parse_xsdt`. -/
def readXsdtRecords (m : Memory) (finish : Nat) : Nat → Nat → Apic → Traced Apic
  | 0, _, _ => stop
  | fuel + 1, entries, apic =>
    if entries < finish then do
      let apic ← readXsdtRecord m entries apic
      let length ← load 1 m (entries + 1)
      readXsdtRecords m finish fuel (entries + length) apic
    else pure apic

/-- The branch of `parse_xsdt` for the table with signature `APIC`. -/
def parseXsdtMadt (m : Memory) (madt fuel : Nat) (apic : Apic) : Traced Apic := do
  let length ← load 4 m (madt + 4)
  let address ← load 4 m (madt + 36)
  readXsdtRecords m (madt + length) fuel (madt + 44) { apic with localApic := address }

section Loops

variable {m : Memory} {finish fuel p b : Nat} {apic : Apic}

/-- What a record leaves behind. -/
def recordApic (m : Memory) (p : Nat) (apic : Apic) : Apic :=
  if m p = 1 then { apic with ioApic := readLE 4 m (p + 4) } else apic

theorem readRecord_result (m : Memory) (p : Nat) (apic : Apic) :
    (readRecord m p apic).result = some (recordApic m p apic) := by
  have hne : (0 : UInt8) ≠ 1 := by decide
  rw [readRecord, result_bind, recordApic]
  show (ite (readLE 1 m p = 0) _ _ : Traced Apic).result = _
  by_cases hlocal : m p = 0
  · rw [if_pos (type_eq_zero.mpr hlocal), hlocal, if_neg hne]
    rfl
  rw [if_neg fun h => hlocal (type_eq_zero.mp h)]
  by_cases hio : m p = 1
  · rw [if_pos (type_eq_one.mpr hio), if_pos hio]
    rfl
  · rw [if_neg fun h => hio (type_eq_one.mp h), if_neg hio]
    rfl

theorem load_bind_congr {k a : Nat} {f g : Nat → Traced Apic} (h : f (readLE k m a) = g (readLE k m a)) :
    (load k m a >>= f) = (load k m a >>= g) := by
  show Traced.mk (_ ++ (f _).accesses) (f _).result = Traced.mk (_ ++ (g _).accesses) (g _).result
  rw [h]

theorem readXsdtRecord_of_ne (h : m p ≠ 1) : readXsdtRecord m p apic = readRecord m p apic := by
  have hio : ¬ readLE 1 m p = 1 := fun htype => h (type_eq_one.mp htype)
  apply load_bind_congr
  rw [if_neg hio, if_neg hio]

/-- The second copy leaves the same behind. -/
theorem readXsdtRecord_result (m : Memory) (p : Nat) (apic : Apic) :
    (readXsdtRecord m p apic).result = some (recordApic m p apic) := by
  by_cases hio : m p = 1
  · have htype : readLE 1 m p = 1 := type_eq_one.mpr hio
    rw [readXsdtRecord, result_bind, recordApic, if_pos hio]
    show (ite (readLE 1 m p = 0) _ _ : Traced Apic).result = _
    rw [if_neg (by omega), if_pos htype]
    rfl
  · rw [readXsdtRecord_of_ne hio, readRecord_result]

/-- The second copy reads the same bytes. -/
theorem touches_readXsdtRecord : Touches (readXsdtRecord m p apic).accesses b ↔
    Touches (readRecord m p apic).accesses b := by
  by_cases hio : m p = 1
  · have htype : readLE 1 m p = 1 := type_eq_one.mpr hio
    have hlocal : ¬ readLE 1 m p = 0 := by omega
    rw [readXsdtRecord, readRecord, touches_load_bind, touches_load_bind, if_neg hlocal, if_neg hlocal,
      if_pos htype, if_pos htype, touches_load_bind, touches_load_bind]
    refine or_congr_right ?_
    rw [← or_assoc, or_self]
  · rw [readXsdtRecord_of_ne hio]

/-- What the loop leaves behind after the records before `finish`. -/
theorem readRecords_succ_result : (readRecords m finish (fuel + 1) p apic).result =
    if p < finish then
      (readRecords m finish fuel (p + (m (p + 1)).toNat) (recordApic m p apic)).result
    else some apic := by
  rw [readRecords]
  by_cases hin : p < finish
  · rw [if_pos hin, if_pos hin, result_bind, readRecord_result, Option.bind_some, result_bind]
    rfl
  · rw [if_neg hin, if_neg hin]
    rfl

/-- Both loops end alike, and read the same bytes. -/
theorem readXsdtRecords_spec (m : Memory) (finish fuel p : Nat) (apic : Apic) :
    (readXsdtRecords m finish fuel p apic).result = (readRecords m finish fuel p apic).result ∧
      ∀ b, Touches (readXsdtRecords m finish fuel p apic).accesses b ↔
        Touches (readRecords m finish fuel p apic).accesses b := by
  induction fuel generalizing p apic with
  | zero => exact ⟨rfl, fun b => Iff.rfl⟩
  | succ fuel ih =>
    rw [readXsdtRecords, readRecords]
    by_cases hin : p < finish
    · rw [if_pos hin, if_pos hin]
      constructor
      · rw [result_bind, result_bind, readXsdtRecord_result, readRecord_result, Option.bind_some,
          Option.bind_some, result_bind, result_bind]
        exact (ih _ _).1
      · intro b
        rw [touches_bind, touches_bind, touches_readXsdtRecord, readXsdtRecord_result,
          readRecord_result]
        simp only [Option.some.injEq, exists_eq_left', touches_load_bind, (ih _ _).2]
    · rw [if_neg hin, if_neg hin]
      exact ⟨rfl, fun b => Iff.rfl⟩

/-- So the walk over the tables of an XSDT goes on as that over those of an RSDT. -/
theorem parseXsdtMadt_spec (m : Memory) (madt fuel : Nat) (apic : Apic) :
    (parseXsdtMadt m madt fuel apic).result = (parseMadt m madt fuel apic).result ∧
      ∀ b, Touches (parseXsdtMadt m madt fuel apic).accesses b ↔
        Touches (parseMadt m madt fuel apic).accesses b := by
  obtain ⟨hresult, htouches⟩ := readXsdtRecords_spec m (madt + readLE 4 m (madt + 4)) fuel
    (madt + 44) { apic with localApic := readLE 4 m (madt + 36) }
  rw [parseXsdtMadt, parseMadt]
  constructor
  · rw [result_bind, result_bind]
    exact hresult
  · intro b
    simp only [touches_load_bind, htouches]

/-! ## Ends and bounds -/

theorem recordAt_add (m : Memory) (p n k : Nat) :
    recordAt m p (n + k) = recordAt m (recordAt m p n) k := by
  induction n generalizing p with
  | zero => rw [Nat.zero_add, recordAt]
  | succ n ih => rw [Nat.succ_add, recordAt, ih, recordAt]

/-- The loop returns when it comes to the end of the table. -/
theorem readRecords_returns_iff : (∃ apic', (readRecords m finish fuel p apic).result = some apic') ↔
    ∃ n < fuel, finish ≤ recordAt m p n := by
  induction fuel generalizing p apic with
  | zero => exact iff_of_false (fun ⟨_, h⟩ => nomatch h) fun ⟨_, h, _⟩ => Nat.not_lt_zero _ h
  | succ fuel ih =>
    rw [readRecords_succ_result]
    by_cases hin : p < finish
    · rw [if_pos hin, ih]
      constructor
      · intro h
        obtain ⟨n, hn, hend⟩ := h
        exact ⟨n + 1, Nat.succ_lt_succ hn, hend⟩
      · intro h
        obtain ⟨n, hn, hend⟩ := h
        cases n with
        | zero => exact absurd hin (Nat.not_lt_of_le hend)
        | succ n => exact ⟨n, Nat.lt_of_succ_lt_succ hn, hend⟩
    · rw [if_neg hin]
      exact iff_of_true ⟨apic, rfl⟩ ⟨0, Nat.succ_pos fuel, Nat.le_of_not_lt hin⟩

/-- The records come to an end unless one of them has length zero. -/
theorem ends_iff : (∃ n, finish ≤ recordAt m p n) ↔
    ∀ n, recordAt m p n < finish → m (recordAt m p n + 1) ≠ 0 := by
  constructor
  · intro h n hin hzero
    obtain ⟨k, hend⟩ := h
    have hstuck : ∀ j, recordAt m p (n + j) = recordAt m p n := by
      intro j
      induction j with
      | zero => rfl
      | succ j ih =>
        have hstep : recordAt m p (n + j + 1) =
            recordAt m (recordAt m p (n + j)) 1 := recordAt_add m p (n + j) 1
        rw [← Nat.add_assoc, hstep, ih, recordAt, recordAt, hzero]
        rfl
    have hlast := le_recordAt m (recordAt m p k) n
    rw [← recordAt_add, Nat.add_comm, hstuck] at hlast
    omega
  · intro h
    by_contra hnever
    have hin : ∀ n, recordAt m p n < finish := fun n => Nat.lt_of_not_le fun hle => hnever ⟨n, hle⟩
    have hgrows : ∀ n, n ≤ recordAt m p n := by
      intro n
      induction n with
      | zero => exact Nat.zero_le _
      | succ n ih =>
        have hnext : recordAt m p (n + 1) =
            recordAt m p n + (m (recordAt m p n + 1)).toNat := recordAt_add m p n 1
        have hlength : (m (recordAt m p n + 1)).toNat ≠ 0 := by
          intro hzero
          exact h n (hin n) (UInt8.toNat_inj.mp hzero)
        omega
    exact absurd (hin finish) (Nat.not_lt_of_le (hgrows finish))

end Loops

/-! ## Any content -/

/-- What the loops read of a record, from its start on. -/
def recordExtent (m : Memory) (p : Nat) : Nat := if m p = 0 then 3 else if m p = 1 then 8 else 2

/-- Every record that starts in the table has a length, and the part of it that the loops
read lies in the table. -/
def RecordsFit (m : Memory) (madt : Nat) : Prop :=
  ∀ n, recordAt m (madt + 44) n < madt + readLE 4 m (madt + 4) →
    m (recordAt m (madt + 44) n + 1) ≠ 0 ∧
      recordAt m (madt + 44) n + recordExtent m (recordAt m (madt + 44) n) ≤
        madt + readLE 4 m (madt + 4)

/-- A loop over the records comes to an end and reads bytes of the table alone. -/
def Robust (loop : Memory → Nat → Nat → Nat → Apic → Traced Apic) (m : Memory) (madt : Nat)
    (apic : Apic) : Prop :=
  (∃ fuel apic', (loop m (madt + readLE 4 m (madt + 4)) fuel (madt + 44) apic).result = some apic') ∧
    ∀ fuel b, Touches (loop m (madt + readLE 4 m (madt + 4)) fuel (madt + 44) apic).accesses b →
      b < madt + readLE 4 m (madt + 4)

section Content

variable {m : Memory} {madt : Nat} {apic : Apic}

theorem recordBytes_lt_iff {p finish : Nat} :
    (∀ b, RecordByte m p b → b < finish) ↔ p + recordExtent m p ≤ finish := by
  have hne : (0 : UInt8) ≠ 1 := by decide
  constructor
  · intro hall
    have hlength := hall (p + 1) (Or.inr (Or.inl rfl))
    rw [recordExtent]
    split
    · rename_i hlocal
      have hid := hall (p + 2) (Or.inr (Or.inr (Or.inl ⟨hlocal, rfl⟩)))
      omega
    split
    · rename_i hio
      have hlast := hall (p + 7) (Or.inr (Or.inr (Or.inr ⟨hio, by omega, by omega⟩)))
      omega
    · omega
  · intro hfits b hb
    rw [recordExtent] at hfits
    rcases hb with rfl | rfl | ⟨hlocal, rfl⟩ | ⟨hio, hle, hlt⟩
    · split at hfits
      · omega
      split at hfits <;> omega
    · split at hfits
      · omega
      split at hfits <;> omega
    · rw [if_pos hlocal] at hfits
      omega
    · rw [if_neg (hio ▸ hne.symm), if_pos hio] at hfits
      omega

theorem robust_readRecords_iff : Robust readRecords m madt apic ↔ RecordsFit m madt := by
  have hends : (∃ fuel apic', (readRecords m (madt + readLE 4 m (madt + 4)) fuel (madt + 44)
      apic).result = some apic') ↔ ∃ n, madt + readLE 4 m (madt + 4) ≤ recordAt m (madt + 44) n := by
    simp only [readRecords_returns_iff]
    exact ⟨fun ⟨_, n, _, h⟩ => ⟨n, h⟩, fun ⟨n, h⟩ => ⟨n + 1, n, Nat.lt_succ_self n, h⟩⟩
  have hinside : (∀ fuel b, Touches (readRecords m (madt + readLE 4 m (madt + 4)) fuel (madt + 44)
      apic).accesses b → b < madt + readLE 4 m (madt + 4)) ↔
      ∀ n, recordAt m (madt + 44) n < madt + readLE 4 m (madt + 4) →
        recordAt m (madt + 44) n + recordExtent m (recordAt m (madt + 44) n) ≤
          madt + readLE 4 m (madt + 4) := by
    simp only [touches_readRecords, ← recordBytes_lt_iff]
    constructor
    · exact fun h n hn b hb => h (n + 1) b ⟨n, Nat.lt_succ_self n, hn, hb⟩
    · intro h fuel b hb
      obtain ⟨n, _, hn, hb⟩ := hb
      exact h n hn b hb
  rw [Robust, hends, ends_iff, hinside, RecordsFit]
  exact ⟨fun h n hn => ⟨h.1 n hn, h.2 n hn⟩, fun h => ⟨fun n hn => (h n hn).1, fun n hn => (h n hn).2⟩⟩

theorem robust_readXsdtRecords_iff :
    Robust readXsdtRecords m madt apic ↔ Robust readRecords m madt apic := by
  rw [Robust, Robust]
  simp only [fun finish fuel p apic => (readXsdtRecords_spec m finish fuel p apic).1,
    fun finish fuel p apic => (readXsdtRecords_spec m finish fuel p apic).2]

end Content

/-- Whatever the table contains, the two loops end and stay in the table exactly when its
records fit. -/
theorem recordLoops_robust_iff (m : Memory) (madt : Nat) (apic : Apic) :
    (Robust readRecords m madt apic ∧ Robust readXsdtRecords m madt apic) ↔ RecordsFit m madt := by
  rw [robust_readXsdtRecords_iff, and_self, robust_readRecords_iff]

/-- A table of 46 bytes at `0x7FE1000` with a record of type 2 and length zero. -/
def zeroLength : Memory := fun a => if a = 0x7FE1000 + 4 then 46 else if a = 0x7FE1000 + 44 then 2 else 0

theorem not_robust : ¬ ∀ (m : Memory) (madt : Nat) (apic : Apic),
    Robust readRecords m madt apic ∧ Robust readXsdtRecords m madt apic := by
  intro h
  have hfit := robust_readRecords_iff.mp (h zeroLength 0x7FE1000 ⟨0, 0⟩).1
  exact (hfit 0 (by decide)).1 (by decide)

/-! ## Whole records -/

/-- A record with its length byte, which counts the two bytes in front of the body. -/
structure Record where
  type : UInt8
  body : List UInt8
  sized : body.length + 2 < 256
  localApic : type = 0 → 8 ≤ body.length + 2
  ioApic : type = 1 → 12 ≤ body.length + 2

def Record.bytes (r : Record) : List UInt8 := r.type :: UInt8.ofNat (r.body.length + 2) :: r.body

/-- The address field of an I/O APIC. -/
def Record.address (r : Record) : Nat := readLE 4 (fun i => r.bytes.getD i 0) 4

/-- The address in the last record of type 1, or the one from before. -/
def lastAddress (previous : Nat) (records : List Record) : Nat :=
  ((records.filter fun r => r.type = 1).getLast?.map Record.address).getD previous

theorem lastAddress_nil (previous : Nat) : lastAddress previous [] = previous := rfl

theorem lastAddress_cons (previous : Nat) (r : Record) (records : List Record) :
    lastAddress previous (r :: records) =
      lastAddress (if r.type = 1 then r.address else previous) records := by
  rw [lastAddress, lastAddress]
  by_cases hio : r.type = 1
  · rw [if_pos hio, List.filter_cons_of_pos (by simpa using hio), List.getLast?_cons]
    cases (records.filter fun r => r.type = 1).getLast? <;> rfl
  · rw [if_neg hio, List.filter_cons_of_neg (by simpa using hio)]

section Records

variable {m : Memory} {p : Nat} {apic : Apic}

theorem isAt_append {a : Nat} {s s' : List UInt8} :
    IsAt m a (s ++ s') ↔ IsAt m a s ∧ IsAt m (a + s.length) s' := by
  induction s generalizing a with
  | nil => exact (and_iff_right isAt_nil).symm
  | cons c s ih =>
    have hplace : a + (c :: s).length = a + 1 + s.length := by
      rw [List.length_cons]
      omega
    rw [List.cons_append, isAt_cons, isAt_cons, ih, hplace, and_assoc]

theorem Record.length_bytes (r : Record) : r.bytes.length = r.body.length + 2 := rfl

/-- What a record holds where it stands. -/
theorem Record.fields {r : Record} (h : IsAt m p r.bytes) :
    m p = r.type ∧ (m (p + 1)).toNat = r.bytes.length ∧
      (r.type = 1 → readLE 4 m (p + 4) = r.address) := by
  have hhead := isAt_cons.mp h
  have hnext := isAt_cons.mp hhead.2
  refine ⟨hhead.1, ?_, fun hio => ?_⟩
  · rw [hnext.1, UInt8.toNat_ofNat', r.length_bytes]
    exact Nat.mod_eq_of_lt r.sized
  · rw [← readLE_shift, Record.address]
    apply readLE_congr
    intro i hi
    have hlength := r.ioApic hio
    have hbyte := h (4 + i) (by rw [r.length_bytes]; omega)
    rw [List.getD_eq_getElem?_getD, hbyte, Option.getD_some]

/-- The loops read no more of a whole record than there is. -/
theorem Record.extent_le {r : Record} (h : IsAt m p r.bytes) : recordExtent m p ≤ r.bytes.length := by
  obtain ⟨htype, _⟩ := Record.fields h
  rw [recordExtent, htype, r.length_bytes]
  split
  · have := r.localApic ‹_›
    omega
  split
  · have := r.ioApic ‹_›
    omega
  · omega

/-- Whole records that end where the table does fit. -/
theorem recordAt_records {records : List Record} (h : IsAt m p (records.flatMap Record.bytes)) {n : Nat}
    (hn : recordAt m p n < p + (records.flatMap Record.bytes).length) :
    m (recordAt m p n + 1) ≠ 0 ∧ recordAt m p n + recordExtent m (recordAt m p n) ≤
      p + (records.flatMap Record.bytes).length := by
  induction records generalizing p n with
  | nil => exact absurd hn (Nat.not_lt_of_le (le_recordAt m p n))
  | cons r records ih =>
    rw [List.flatMap_cons, isAt_append] at h
    obtain ⟨_, hlength, _⟩ := Record.fields h.1
    have hextent := Record.extent_le h.1
    have hfinish : p + ((r :: records).flatMap Record.bytes).length =
        p + r.bytes.length + (records.flatMap Record.bytes).length := by
      rw [List.flatMap_cons, List.length_append, Nat.add_assoc]
    rw [hfinish] at hn ⊢
    cases n with
    | zero =>
      refine ⟨fun hzero => ?_, ?_⟩
      · change m (p + 1) = 0 at hzero
        rw [hzero, r.length_bytes] at hlength
        exact absurd hlength.symm (Nat.succ_ne_zero _)
      · show p + recordExtent m p ≤ _
        omega
    | succ n =>
      rw [recordAt, hlength] at hn ⊢
      exact ih h.2 hn

/-- The loop over whole records that end where the table does. -/
theorem readRecords_records {records : List Record} (h : IsAt m p (records.flatMap Record.bytes))
    (k : Nat) : (readRecords m (p + (records.flatMap Record.bytes).length) (records.length + 1 + k)
      p apic).result = some { apic with ioApic := lastAddress apic.ioApic records } := by
  induction records generalizing p apic with
  | nil =>
    rw [List.length_nil, Nat.zero_add, Nat.add_comm 1 k, readRecords_succ_result,
      if_neg (by simp), lastAddress_nil]
  | cons r records ih =>
    rw [List.flatMap_cons, isAt_append] at h
    obtain ⟨htype, hlength, haddress⟩ := Record.fields h.1
    have hfuel : (r :: records).length + 1 + k = records.length + 1 + k + 1 := by
      rw [List.length_cons]
      omega
    have hfinish : p + ((r :: records).flatMap Record.bytes).length =
        p + r.bytes.length + (records.flatMap Record.bytes).length := by
      rw [List.flatMap_cons, List.length_append, Nat.add_assoc]
    have hin : p < p + r.bytes.length + (records.flatMap Record.bytes).length := by
      rw [r.length_bytes]
      omega
    rw [hfuel, hfinish, readRecords_succ_result, if_pos hin, hlength, ih h.2, recordApic, htype,
      lastAddress_cons]
    by_cases hio : r.type = 1
    · rw [if_pos hio, if_pos hio, haddress hio]
    · rw [if_neg hio, if_neg hio]

/-- A table of whole records is one on which the loops are robust. -/
theorem recordsFit_of_records {madt : Nat} {records : List Record}
    (hlength : readLE 4 m (madt + 4) = 44 + (records.flatMap Record.bytes).length)
    (hrecords : IsAt m (madt + 44) (records.flatMap Record.bytes)) : RecordsFit m madt := by
  intro n hn
  rw [hlength, ← Nat.add_assoc] at hn ⊢
  exact recordAt_records hrecords hn

end Records

/-- On a table of whole records both loops end with the local APIC's address and that of
the last I/O APIC. -/
theorem parseMadt_decodes (m : Memory) (madt : Nat) (apic : Apic) (records : List Record)
    (hlength : readLE 4 m (madt + 4) = 44 + (records.flatMap Record.bytes).length)
    (hrecords : IsAt m (madt + 44) (records.flatMap Record.bytes)) :
    ∃ rounds, ∀ fuel ≥ rounds,
      (parseMadt m madt fuel apic).result =
        some ⟨readLE 4 m (madt + 36), lastAddress apic.ioApic records⟩ ∧
      (parseXsdtMadt m madt fuel apic).result =
        some ⟨readLE 4 m (madt + 36), lastAddress apic.ioApic records⟩ := by
  refine ⟨records.length + 1, fun fuel hfuel => ?_⟩
  obtain ⟨k, rfl⟩ := Nat.exists_eq_add_of_le hfuel
  have hloop := @readRecords_records m (madt + 44) { apic with localApic := readLE 4 m (madt + 36) }
    records hrecords k
  have hfinish : madt + readLE 4 m (madt + 4) =
      madt + 44 + (records.flatMap Record.bytes).length := by omega
  have hdecoded : (parseMadt m madt (records.length + 1 + k) apic).result =
      some ⟨readLE 4 m (madt + 36), lastAddress apic.ioApic records⟩ := by
    rw [parseMadt, result_bind]
    show (load 4 m (madt + 36) >>= fun address => readRecords m (madt + readLE 4 m (madt + 4)) _
      (madt + 44) { apic with localApic := address }).result = _
    rw [hfinish]
    exact hloop
  exact ⟨hdecoded, (parseXsdtMadt_spec m madt _ apic).1.trans hdecoded⟩

/-- A local APIC, an I/O APIC, an override of the local APIC's address and a second I/O APIC. -/
def sampleRecords : List Record :=
  [⟨0, [0, 0, 1, 0, 0, 0], by decide, by decide, by decide⟩,
    ⟨1, [2, 0, 0x00, 0x00, 0xC0, 0xFE, 0, 0, 0, 0], by decide, by decide, by decide⟩,
    ⟨5, [0, 0, 0x00, 0x00, 0xE0, 0xFE, 0, 0, 0, 0], by decide, by decide, by decide⟩,
    ⟨1, [3, 0, 0x00, 0x10, 0xC0, 0xFE, 24, 0, 0, 0], by decide, by decide, by decide⟩]

/-- A table at `0x7FE1000` with these records and the local APIC at `0xFEE00000`. -/
def sampleMadt : Memory := fun a =>
  if a = 0x7FE1000 + 4 then 88
  else if 0x7FE1000 + 36 ≤ a ∧ a < 0x7FE1000 + 40 then
    [0x00, 0x00, 0xE0, 0xFE].getD (a - (0x7FE1000 + 36)) 0
  else if 0x7FE1000 + 44 ≤ a then (sampleRecords.flatMap Record.bytes).getD (a - (0x7FE1000 + 44)) 0
  else 0

/-- The address of the second I/O APIC takes the place of the first one and of the old one. -/
theorem parseMadt_decodes_four_records : ∃ rounds, ∀ fuel ≥ rounds,
    (parseMadt sampleMadt 0x7FE1000 fuel ⟨0x1000, 0x2000⟩).result = some ⟨0xFEE00000, 0xFEC01000⟩ ∧
    (parseXsdtMadt sampleMadt 0x7FE1000 fuel ⟨0x1000, 0x2000⟩).result =
      some ⟨0xFEE00000, 0xFEC01000⟩ := by
  have hlocal : readLE 4 sampleMadt (0x7FE1000 + 36) = 0xFEE00000 := by decide
  have hlast : lastAddress 0x2000 sampleRecords = 0xFEC01000 := by decide
  have hdecodes := parseMadt_decodes sampleMadt 0x7FE1000 ⟨0x1000, 0x2000⟩ sampleRecords (by decide)
    (by decide)
  rwa [hlocal, hlast] at hdecodes

end PaskakasaOS.Kernel.AcpiRecords
