import PaskakasaOS.Kernel.Acpi
import PaskakasaOS.Kernel.Utils.Mem
import PaskakasaOS.Kernel.Memory.InitPaging

/-!
# Which pages the walk over the firmware's tables needs

`parse_acpi` maps the page in which a table starts, in one path for every table and in
the other for the root alone, and then reads as far as headers, strings and records
lead it. Every byte it reads is mapped at that moment exactly when the tables are
placed so that the parts it uses lie on those pages or in the first 6400.
-/
namespace PaskakasaOS.Kernel.AcpiCoverage

open Lib.ByteMemory Lib.AccessTrace Lib.AccessTrace.Traced Lib.Runs Lib.TableTree Acpi
open Memory.Pmm Memory.Vmm Memory.VmmTree Memory.MapPage Memory.PageRuns Memory.InitPaging

/-- The pages of `init_paging` that firmware data can be in, and those of the
addresses that the walk has passed to `map_page`. -/
def Mapped (starts : List Nat) (b : Nat) : Prop :=
  b < 6400 * 4096 ∨ ∃ v ∈ starts, b / 4096 = v / 4096

variable {ok : List Nat → Nat → Prop} {granted : List Nat} {m : Memory} {a b fuel finish : Nat}
  {s : List UInt8} {apic : Apic} {β : Type}

/-! ## Strings -/

/-- The string `s` stands at `a`. -/
def IsAt (m : Memory) (a : Nat) (s : List UInt8) : Prop := ∀ n < s.length, s[n]? = some (m (a + n))

instance (m : Memory) (a : Nat) (s : List UInt8) : Decidable (IsAt m a s) :=
  inferInstanceAs (Decidable (∀ n < s.length, s[n]? = some (m (a + n))))

theorem isAt_nil : IsAt m a [] := fun _ hn => absurd hn (Nat.not_lt_zero _)

theorem isAt_cons {c : UInt8} : IsAt m a (c :: s) ↔ m a = c ∧ IsAt m (a + 1) s := by
  constructor
  · intro h
    refine ⟨(Option.some.inj (h 0 (Nat.succ_pos _))).symm, fun n hn => ?_⟩
    have hnext := h (n + 1) (Nat.succ_lt_succ hn)
    rwa [List.getElem?_cons_succ, ← Nat.add_assoc, Nat.add_right_comm] at hnext
  · intro hboth n hn
    obtain ⟨rfl, h⟩ := hboth
    cases n with
    | zero => rfl
    | succ n =>
      rw [List.getElem?_cons_succ, ← Nat.add_assoc, Nat.add_right_comm]
      exact h n (Nat.lt_of_succ_lt_succ hn)

theorem readOnly_strcmp (m : Memory) (a : Nat) (s : List UInt8) :
    ReadOnly (strcmp m a s).accesses := by
  induction s generalizing a with
  | nil => exact readOnly_pure 0
  | cons c s ih =>
    refine readOnly_bind readOnly_load fun _ => ?_
    split
    · exact readOnly_pure 1
    · exact ih (a + 1)

theorem strcmp_result (m : Memory) (a : Nat) (s : List UInt8) :
    (strcmp m a s).result = some (if IsAt m a s then 0 else 1) := by
  induction s generalizing a with
  | nil => exact congrArg some (if_pos isAt_nil).symm
  | cons c s ih =>
    rw [strcmp, result_bind]
    show (if m a ≠ c then pure 1 else strcmp m (a + 1) s : Traced Nat).result = _
    by_cases hc : m a = c
    · rw [if_neg (not_not.mpr hc), ih]
      simp only [isAt_cons, hc, true_and]
    · rw [if_pos hc, if_neg fun h => hc (isAt_cons.mp h).1]
      rfl

/-- A scan stops at `a`, or goes on from the next byte. -/
theorem scan_succ {C : Nat → Prop} {N : Nat} :
    (∃ n < N + 1, b = a + n ∧ ∀ k < n, C (a + k)) ↔
      b = a ∨ C a ∧ ∃ n < N, b = a + 1 + n ∧ ∀ k < n, C (a + 1 + k) := by
  have hplace : ∀ k, a + (k + 1) = a + 1 + k := fun k => by omega
  constructor
  · intro hplaces
    obtain ⟨n, hn, rfl, h⟩ := hplaces
    cases n with
    | zero => exact Or.inl rfl
    | succ n =>
      refine Or.inr ⟨h 0 (Nat.succ_pos n), n, Nat.lt_of_succ_lt_succ hn, hplace n, fun k hk => ?_⟩
      rw [← hplace]
      exact h (k + 1) (Nat.succ_lt_succ hk)
  · intro hreads
    rcases hreads with rfl | ⟨hfirst, n, hn, rfl, h⟩
    · exact ⟨0, Nat.succ_pos N, rfl, fun k hk => absurd hk (Nat.not_lt_zero k)⟩
    · refine ⟨n + 1, Nat.succ_lt_succ hn, (hplace n).symm, fun k hk => ?_⟩
      cases k with
      | zero => exact hfirst
      | succ k =>
        rw [hplace]
        exact h k (Nat.lt_of_succ_lt_succ hk)

/-- The comparison reads on as long as the characters agree. -/
theorem touches_strcmp : Touches (strcmp m a s).accesses b ↔
    ∃ n < s.length, b = a + n ∧ ∀ k < n, s[k]? = some (m (a + k)) := by
  induction s generalizing a with
  | nil => exact ⟨fun h => absurd h touches_pure, fun ⟨_, hn, _⟩ => absurd hn (Nat.not_lt_zero _)⟩
  | cons c s ih =>
    have hshift : (∃ n < s.length + 1, b = a + n ∧ ∀ k < n, (c :: s)[k]? = some (m (a + k))) ↔
        b = a ∨ m a = c ∧ ∃ n < s.length, b = a + 1 + n ∧ ∀ k < n, s[k]? = some (m (a + 1 + k)) := by
      have hscan := scan_succ (C := fun x => (c :: s)[x - a]? = some (m x)) (a := a) (b := b)
        (N := s.length)
      have hindex : ∀ k, a + 1 + k - a = k + 1 := fun k => by omega
      simp only [Nat.add_sub_cancel_left, Nat.sub_self, hindex, List.getElem?_cons_succ,
        List.getElem?_cons_zero, Option.some.injEq] at hscan
      rw [hscan, eq_comm (a := c)]
    rw [strcmp, touches_load_bind, List.length_cons, hshift, ← ih]
    have hbyte : a ≤ b ∧ b < a + 1 ↔ b = a := by omega
    rw [hbyte]
    by_cases hc : m a = c
    · rw [if_neg (not_not.mpr hc)]
      simp only [hc, true_and]
    · rw [if_pos hc]
      simp only [hc, false_and, or_false]
      exact or_iff_left touches_pure

theorem readOnly_strlen (m : Memory) (rest a : Nat) : ReadOnly (strlen m rest a).accesses := by
  induction rest generalizing a with
  | zero => exact readOnly_nil
  | succ rest ih =>
    refine readOnly_bind readOnly_load fun _ => ?_
    split
    · exact readOnly_pure 0
    · exact readOnly_bind (ih (a + 1)) fun n => readOnly_pure (n + 1)

theorem touches_strlen {rest : Nat} : Touches (strlen m rest a).accesses b ↔
    ∃ n < rest, b = a + n ∧ ∀ k < n, m (a + k) ≠ 0 := by
  induction rest generalizing a with
  | zero => exact ⟨fun h => absurd h touches_nil, fun ⟨_, hn, _⟩ => absurd hn (Nat.not_lt_zero _)⟩
  | succ rest ih =>
    have hbyte : a ≤ b ∧ b < a + 1 ↔ b = a := by omega
    rw [strlen, touches_load_bind, scan_succ (C := fun x => m x ≠ 0), ← ih, hbyte]
    by_cases hc : m a = 0
    · rw [if_pos hc]
      simp only [hc, ne_eq, not_true_eq_false, false_and, or_false]
      exact or_iff_left touches_pure
    · rw [if_neg hc, touches_bind]
      simp only [hc, ne_eq, not_false_eq_true, true_and, touches_pure, and_false, exists_false,
        or_false]

/-- It counts as the `strlen` of `mem.c`. -/
theorem strlen_result_eq (m : Memory) (rest a : Nat) :
    (strlen m rest a).result = Utils.Mem.strlen m rest a := by
  induction rest generalizing a with
  | zero => rfl
  | succ rest ih =>
    rw [strlen, result_bind, Utils.Mem.strlen]
    change (if m a = 0 then pure 0 else strlen m rest (a + 1) >>= fun n => pure (n + 1) :
      Traced Nat).result = _
    by_cases hc : m a = 0
    · rw [if_pos hc, if_pos hc]
      rfl
    · rw [if_neg hc, if_neg hc, result_bind, ih]
      cases Utils.Mem.strlen m rest (a + 1) <;> rfl

/-- The count is the place of the first zero. -/
theorem strlen_result {rest n : Nat} (h : (strlen m rest a).result = some n) :
    n < rest ∧ m (a + n) = 0 ∧ ∀ k < n, m (a + k) ≠ 0 := by
  rw [strlen_result_eq] at h
  exact Utils.Mem.strlen_eq_some_iff.mp h

theorem strlen_returns {rest : Nat} :
    (∃ n, (strlen m rest a).result = some n) ↔ ∃ n < rest, m (a + n) = 0 := by
  constructor
  · intro hsome
    obtain ⟨n, hn⟩ := hsome
    have hfirst := strlen_result hn
    exact ⟨n, hfirst.1, hfirst.2.1⟩
  · intro hsome
    obtain ⟨n, hn, hzero⟩ := hsome
    have hexists : ∃ n, m (a + n) = 0 := ⟨n, hzero⟩
    refine ⟨Nat.find hexists, ?_⟩
    rw [strlen_result_eq, Utils.Mem.strlen_eq_some_iff]
    exact ⟨(Nat.find_min' hexists hzero).trans_lt hn, Nat.find_spec hexists,
      fun k hk => Nat.find_min hexists hk⟩

theorem readOnly_print (m : Memory) (a : Nat) : ReadOnly (print m a).accesses :=
  readOnly_bind (readOnly_strlen m _ a) fun _ => readOnly_bind readOnly_load fun _ =>
    readOnly_pure ()

/-- Printing reads the string, with its zero, and its characters a second time. -/
theorem touches_print : Touches (print m a).accesses b ↔
    ∃ n < 2 ^ 64, b = a + n ∧ ∀ k < n, m (a + k) ≠ 0 := by
  rw [print, touches_bind, touches_strlen]
  constructor
  · intro hreads
    rcases hreads with hscan | ⟨len, hlen, hagain⟩
    · exact hscan
    · rcases touches_load_bind.mp hagain with ⟨hle, hlt⟩ | hnone
      · have hsmall := Nat.mod_le len (2 ^ 8)
        obtain ⟨hend, _, hbefore⟩ := strlen_result hlen
        exact ⟨b - a, by omega, by omega, fun k hk => hbefore k (by omega)⟩
      · exact absurd hnone touches_pure
  · exact Or.inl

/-- A zero byte follows, so that the string is printed. -/
def Ends (m : Memory) (a : Nat) : Prop := ∃ n < 2 ^ 64, m (a + n) = 0

theorem print_returns_iff : (∃ x, (print m a).result = some x) ↔ Ends m a := by
  rw [Ends, ← strlen_returns, print]
  simp only [result_bind, Option.bind_eq_some_iff]
  exact ⟨fun ⟨_, n, hn, _⟩ => ⟨n, hn⟩, fun ⟨n, hn⟩ => ⟨(), n, hn, _, rfl, rfl⟩⟩

theorem covered_print_bind {f : Unit → Traced β} :
    Covered ok granted (print m a >>= f).accesses ↔
      (∀ n < 2 ^ 64, (∀ k < n, m (a + k) ≠ 0) → ok granted (a + n)) ∧
        (Ends m a → Covered ok granted (f ()).accesses) := by
  rw [(readOnly_print m a).covered_bind, ← print_returns_iff]
  simp only [touches_print]
  refine and_congr ⟨fun h n hn hsame => h _ ⟨n, hn, rfl, hsame⟩, ?_⟩
    ⟨fun h hx => hx.elim fun x hx => h x hx, fun h x hx => h ⟨x, hx⟩⟩
  rintro h _ ⟨n, hn, rfl, hsame⟩
  exact h n hn hsame

theorem covered_strcmp_bind {f : Nat → Traced β} :
    Covered ok granted (strcmp m a s >>= f).accesses ↔
      (∀ n < s.length, (∀ k < n, s[k]? = some (m (a + k))) → ok granted (a + n)) ∧
        Covered ok granted (f (if IsAt m a s then 0 else 1)).accesses := by
  rw [(readOnly_strcmp m a s).covered_bind]
  simp only [touches_strcmp, strcmp_result]
  refine and_congr ⟨fun h n hn hsame => h _ ⟨n, hn, rfl, hsame⟩, ?_⟩
    ⟨fun h => h _ rfl, fun h x hx => Option.some.inj hx ▸ h⟩
  rintro h _ ⟨n, hn, rfl, hsame⟩
  exact h n hn hsame

/-! ## The records -/

/-- The place of record `n` when a record starts at `p`. -/
def recordAt (m : Memory) (p : Nat) : Nat → Nat
  | 0 => p
  | n + 1 => recordAt m (p + (m (p + 1)).toNat) n

/-- What the walk reads of the record at `p`: its type, its length and the field its type asks for. -/
def RecordByte (m : Memory) (p b : Nat) : Prop :=
  b = p ∨ b = p + 1 ∨ (m p = 0 ∧ b = p + 2) ∨ (m p = 1 ∧ p + 4 ≤ b ∧ b < p + 8)

theorem le_recordAt (m : Memory) (p n : Nat) : p ≤ recordAt m p n := by
  induction n generalizing p with
  | zero => exact Nat.le_refl p
  | succ n ih => exact (Nat.le_add_right p _).trans (ih _)

theorem readOnly_readRecord (m : Memory) (p : Nat) (apic : Apic) :
    ReadOnly (readRecord m p apic).accesses := by
  refine readOnly_bind readOnly_load fun _ => ?_
  split
  · exact readOnly_bind readOnly_load fun _ => readOnly_pure _
  split
  · exact readOnly_bind readOnly_load fun _ => readOnly_pure _
  · exact readOnly_pure _

theorem type_eq_zero {p : Nat} : readLE 1 m p = 0 ↔ m p = 0 := by
  rw [readLE_one, ← UInt8.toNat_inj]
  rfl

theorem type_eq_one {p : Nat} : readLE 1 m p = 1 ↔ m p = 1 := by
  rw [readLE_one, ← UInt8.toNat_inj]
  rfl

theorem readRecord_returns (m : Memory) (p : Nat) (apic : Apic) :
    ∃ apic', (readRecord m p apic).result = some apic' := by
  rw [readRecord, result_bind]
  show ∃ apic', (ite (readLE 1 m p = 0) _ _ : Traced Apic).result = some apic'
  split
  · exact ⟨apic, rfl⟩
  split
  · exact ⟨{ apic with ioApic := readLE 4 m (p + 4) }, rfl⟩
  · exact ⟨apic, rfl⟩

theorem touches_readRecord {p : Nat} : Touches (readRecord m p apic).accesses b ↔
    b = p ∨ (m p = 0 ∧ b = p + 2) ∨ (m p = 1 ∧ p + 4 ≤ b ∧ b < p + 8) := by
  have hbyte : ∀ q, q ≤ b ∧ b < q + 1 ↔ b = q := fun q => by omega
  have hne : (0 : UInt8) ≠ 1 := by decide
  rw [readRecord, touches_load_bind, hbyte]
  by_cases hlocal : m p = 0
  · have hio : ¬ m p = 1 := hlocal ▸ hne
    rw [if_pos (type_eq_zero.mpr hlocal), touches_load_bind, hbyte, or_iff_left touches_pure]
    simp only [eq_true hlocal, eq_false hio, true_and, false_and, or_false]
  rw [if_neg fun h => hlocal (type_eq_zero.mp h)]
  by_cases hio : m p = 1
  · rw [if_pos (type_eq_one.mpr hio), touches_load_bind, or_iff_left touches_pure]
    simp only [eq_false hlocal, eq_true hio, true_and, false_and, false_or]
  · rw [if_neg fun h => hio (type_eq_one.mp h), or_iff_left touches_pure]
    simp only [eq_false hlocal, eq_false hio, false_and, or_false]

theorem readOnly_readRecords (m : Memory) (finish fuel p : Nat) (apic : Apic) :
    ReadOnly (readRecords m finish fuel p apic).accesses := by
  induction fuel generalizing p apic with
  | zero => exact readOnly_nil
  | succ fuel ih =>
    unfold readRecords
    split
    · exact readOnly_bind (readOnly_readRecord m p apic) fun _ =>
        readOnly_bind readOnly_load fun _ => ih _ _
    · exact readOnly_pure _

/-- The records the walk reads start before the end of the table. -/
theorem touches_readRecords {p : Nat} : Touches (readRecords m finish fuel p apic).accesses b ↔
    ∃ n < fuel, recordAt m p n < finish ∧ RecordByte m (recordAt m p n) b := by
  induction fuel generalizing p apic with
  | zero => exact ⟨fun h => absurd h touches_nil, fun ⟨_, hn, _⟩ => absurd hn (Nat.not_lt_zero _)⟩
  | succ fuel ih =>
    unfold readRecords
    by_cases hin : p < finish
    · obtain ⟨apic', hapic⟩ := readRecord_returns m p apic
      have hbyte : p + 1 ≤ b ∧ b < p + 1 + 1 ↔ b = p + 1 := by omega
      rw [if_pos hin, touches_bind, hapic, touches_readRecord]
      simp only [Option.some.injEq, exists_eq_left', touches_load_bind, hbyte, ih, readLE_one]
      constructor
      · intro hreads
        rcases hreads with hfirst | hlength | ⟨n, hn, hrest⟩
        · exact ⟨0, Nat.succ_pos fuel, hin, hfirst.imp_right Or.inr⟩
        · exact ⟨0, Nat.succ_pos fuel, hin, Or.inr (Or.inl hlength)⟩
        · exact ⟨n + 1, Nat.succ_lt_succ hn, hrest⟩
      · intro hrecord
        obtain ⟨n, hn, hlt, hrecord⟩ := hrecord
        cases n with
        | zero =>
          rcases hrecord with htype | hlength | hfield
          · exact Or.inl (Or.inl htype)
          · exact Or.inr (Or.inl hlength)
          · exact Or.inl (Or.inr hfield)
        | succ n => exact Or.inr (Or.inr ⟨n, Nat.lt_of_succ_lt_succ hn, hlt, hrecord⟩)
    · rw [if_neg hin]
      refine ⟨fun h => absurd h touches_pure, ?_⟩
      intro hnone
      obtain ⟨n, _, hlt, _⟩ := hnone
      exact absurd (Nat.lt_of_le_of_lt (le_recordAt m p n) hlt) hin

/-- The parts of the table at `madt` that the walk uses can be read. -/
structure MadtReadable (P : Nat → Prop) (m : Memory) (madt : Nat) : Prop where
  length : ∀ b, madt + 4 ≤ b → b < madt + 8 → P b
  address : ∀ b, madt + 36 ≤ b → b < madt + 40 → P b
  records : ∀ n, recordAt m (madt + 44) n < madt + readLE 4 m (madt + 4) →
    ∀ b, RecordByte m (recordAt m (madt + 44) n) b → P b

theorem parseMadt_covered_iff {madt : Nat} :
    (∀ fuel, Covered ok granted (parseMadt m madt fuel apic).accesses) ↔
      MadtReadable (ok granted) m madt := by
  simp only [parseMadt, covered_load_bind, (readOnly_readRecords m _ _ _ _).covered_iff,
    touches_readRecords]
  constructor
  · intro h
    exact ⟨(h 0).1, (h 0).2.1, fun n hn b hb => (h (n + 1)).2.2 b ⟨n, Nat.lt_succ_self n, hn, hb⟩⟩
  · intro h fuel
    exact ⟨h.length, h.address, fun b ⟨n, _, hn, hb⟩ => h.records n hn b hb⟩

/-! ## The tables of `parse_rsdt` -/

/-- What holds of each entry a walk reaches holds of the first, and of those it reaches after it. -/
theorem reached_succ {P Q : Nat → Prop} {rest i : Nat} :
    (∀ j < rest + 1, (∀ k < j, P (i + k)) → Q (i + j)) ↔
      Q i ∧ (P i → ∀ j < rest, (∀ k < j, P (i + 1 + k)) → Q (i + 1 + j)) := by
  have hplace : ∀ k, i + 1 + k = i + (k + 1) := fun k => by omega
  constructor
  · intro h
    refine ⟨h 0 (Nat.succ_pos rest) fun k hk => absurd hk (Nat.not_lt_zero k), ?_⟩
    intro hfirst j hj hbefore
    rw [hplace]
    refine h (j + 1) (Nat.succ_lt_succ hj) fun k hk => ?_
    cases k with
    | zero => exact hfirst
    | succ k => exact hplace k ▸ hbefore k (Nat.lt_of_succ_lt_succ hk)
  · intro hboth j hj hbefore
    obtain ⟨hfirst, hrest⟩ := hboth
    cases j with
    | zero => exact hfirst
    | succ j =>
      rw [← hplace]
      refine hrest (hbefore 0 (Nat.succ_pos j)) j (Nat.lt_of_succ_lt_succ hj) fun k hk => ?_
      rw [hplace]
      exact hbefore (k + 1) (Nat.succ_lt_succ hk)

/-- The table of entry `i`. -/
def rsdtTable (m : Memory) (rsdt i : Nat) : Nat := readLE 4 m (rsdt + 36 + 4 * i)

/-- The parts of entry `i` and of its table that the walk uses can be read. -/
structure RsdtEntryReadable (P : Nat → Prop) (m : Memory) (rsdt i : Nat) : Prop where
  entry : ∀ b, rsdt + 36 + 4 * i ≤ b → b < rsdt + 36 + 4 * i + 4 → P b
  signature : ∀ n < 4, (∀ k < n, apicSignature[k]? = some (m (rsdtTable m rsdt i + k))) →
    P (rsdtTable m rsdt i + n)
  madt : IsAt m (rsdtTable m rsdt i) apicSignature → MadtReadable P m (rsdtTable m rsdt i)

/-- The walk goes on behind a table that is not the MADT. -/
theorem rsdtLoop_covered_iff {rsdt rest i : Nat} :
    (∀ fuel, Covered ok granted (rsdtLoop m rsdt fuel rest i apic).accesses) ↔
      ∀ j < rest, (∀ k < j, ¬ IsAt m (rsdtTable m rsdt (i + k)) apicSignature) →
        RsdtEntryReadable (ok granted) m rsdt (i + j) := by
  induction rest generalizing i with
  | zero => exact ⟨fun _ j hj => absurd hj (Nat.not_lt_zero j), fun _ _ => trivial⟩
  | succ rest ih =>
    rw [reached_succ (P := fun k => ¬ IsAt m (rsdtTable m rsdt k) apicSignature)
      (Q := RsdtEntryReadable (ok granted) m rsdt), ← ih]
    simp only [rsdtLoop, covered_load_bind, covered_strcmp_bind, forall_and, forall_const]
    rw [← rsdtTable]
    by_cases hapic : IsAt m (rsdtTable m rsdt i) apicSignature
    · simp only [if_pos hapic, if_true, parseMadt_covered_iff]
      constructor
      · intro hread
        obtain ⟨hentry, hsignature, hmadt⟩ := hread
        exact ⟨⟨hentry, hsignature, fun _ => hmadt⟩, fun hnot => absurd hapic hnot⟩
      · intro hread
        obtain ⟨hfirst, _⟩ := hread
        exact ⟨hfirst.entry, hfirst.signature, hfirst.madt hapic⟩
    · simp only [if_neg hapic, one_ne_zero, if_false]
      constructor
      · intro hread
        obtain ⟨hentry, hsignature, hrest⟩ := hread
        exact ⟨⟨hentry, hsignature, fun h => absurd h hapic⟩, fun _ => hrest⟩
      · intro hread
        obtain ⟨hfirst, hrest⟩ := hread
        exact ⟨hfirst.entry, hfirst.signature, hrest hapic⟩

/-- The parts of the table at `rsdt`, and of those it lists, that the walk uses can be read. -/
def RsdtReadable (P : Nat → Prop) (m : Memory) (rsdt : Nat) : Prop :=
  ∀ i < 25, (∀ j < i, ¬ IsAt m (rsdtTable m rsdt j) apicSignature) → RsdtEntryReadable P m rsdt i

theorem parseRsdt_covered_iff {rsdt : Nat} :
    (∀ fuel, Covered ok granted (parseRsdt m rsdt fuel apic).accesses) ↔
      RsdtReadable (ok granted) m rsdt := by
  simp only [parseRsdt, rsdtLoop_covered_iff, RsdtReadable, Nat.zero_add]

/-! ## The tables of `parse_xsdt` -/

/-- The addresses granted when the walk reaches entry `i`. -/
def xsdtStarts (m : Memory) (xsdt : Nat) : Nat → List Nat
  | 0 => [xsdt]
  | i + 1 => xsdtTable m xsdt i :: xsdtStarts m xsdt i

/-- The parts of entry `i` and of its table that the walk uses can be read, the table's
with the grant for its own start. -/
structure XsdtEntryReadable (ok : List Nat → Nat → Prop) (m : Memory) (xsdt i : Nat) : Prop where
  entry : ∀ b, xsdt + 40 + 8 * i ≤ b → b < xsdt + 40 + 8 * i + 8 → ok (xsdtStarts m xsdt i) b
  signature : ∀ n < 2 ^ 64, (∀ k < n, m (xsdtTable m xsdt i + k) ≠ 0) →
    ok (xsdtStarts m xsdt (i + 1)) (xsdtTable m xsdt i + n)
  madt : Ends m (xsdtTable m xsdt i) → IsAt m (xsdtTable m xsdt i) apicSignature →
    MadtReadable (ok (xsdtStarts m xsdt (i + 1))) m (xsdtTable m xsdt i)

/-- The walk goes on behind a table whose signature is printed and is not that of the MADT. -/
def Passed (m : Memory) (table : Nat) : Prop := Ends m table ∧ ¬ IsAt m table apicSignature

/-- The comparison stays within the string that has been printed. -/
theorem compared_of_printed {P : Nat → Prop} {table : Nat}
    (h : ∀ n < 2 ^ 64, (∀ k < n, m (table + k) ≠ 0) → P (table + n)) :
    ∀ n < apicSignature.length, (∀ k < n, apicSignature[k]? = some (m (table + k))) →
      P (table + n) := by
  have hnonzero : ∀ c ∈ apicSignature, c ≠ 0 := by simp [apicSignature]
  intro n hn hsame
  refine h n (Nat.lt_trans hn (by decide)) fun k hk => ?_
  exact hnonzero _ (List.mem_of_getElem? (hsame k hk))

theorem xsdtLoop_covered_iff {xsdt rest i : Nat} :
    (∀ fuel, Covered ok (xsdtStarts m xsdt i) (xsdtLoop m xsdt fuel rest i apic).accesses) ↔
      ∀ j < rest, (∀ k < j, Passed m (xsdtTable m xsdt (i + k))) →
        XsdtEntryReadable ok m xsdt (i + j) := by
  induction rest generalizing i with
  | zero => exact ⟨fun _ j hj => absurd hj (Nat.not_lt_zero j), fun _ _ => trivial⟩
  | succ rest ih =>
    rw [reached_succ (P := fun k => Passed m (xsdtTable m xsdt k))
      (Q := XsdtEntryReadable ok m xsdt), ← ih]
    simp only [xsdtLoop, covered_load_bind, covered_grant_bind, covered_print_bind,
      covered_strcmp_bind, forall_and, forall_const, forall_comm (β := Ends _ _)]
    rw [← xsdtStarts]
    by_cases hapic : IsAt m (xsdtTable m xsdt i) apicSignature
    · simp only [if_pos hapic, if_true, parseMadt_covered_iff]
      constructor
      · intro hread
        obtain ⟨hentry, hsignature, _, hmadt⟩ := hread
        exact ⟨⟨hentry, hsignature, fun hends _ => hmadt hends⟩, fun hnot => absurd hapic hnot.2⟩
      · intro hread
        obtain ⟨hfirst, _⟩ := hread
        exact ⟨hfirst.entry, hfirst.signature, fun _ => compared_of_printed hfirst.signature,
          fun hends => hfirst.madt hends hapic⟩
    · simp only [if_neg hapic, one_ne_zero, if_false]
      constructor
      · intro hread
        obtain ⟨hentry, hsignature, _, hrest⟩ := hread
        exact ⟨⟨hentry, hsignature, fun _ h => absurd h hapic⟩, fun hpassed => hrest hpassed.1⟩
      · intro hread
        obtain ⟨hfirst, hrest⟩ := hread
        exact ⟨hfirst.entry, hfirst.signature, fun _ => compared_of_printed hfirst.signature,
          fun hends => hrest ⟨hends, hapic⟩⟩

/-- The parts of the table at `xsdt`, and of those it lists, that the walk uses can be read. -/
structure XsdtReadable (ok : List Nat → Nat → Prop) (m : Memory) (xsdt : Nat) : Prop where
  length : ∀ b, xsdt + 4 ≤ b → b < xsdt + 8 → ok [xsdt] b
  whole : ∀ b, xsdt ≤ b → b < xsdt + readLE 4 m (xsdt + 4) → ok [xsdt] b
  entries : ∀ i < entryCount (readLE 4 m (xsdt + 4)),
    (∀ j < i, Passed m (xsdtTable m xsdt j)) → XsdtEntryReadable ok m xsdt i

theorem verifyChecksum_spec (m : Memory) (table length : Nat) :
    ReadOnly (verifyChecksum m table length).accesses ∧
      (∃ sum, (verifyChecksum m table length).result = some sum) ∧
      ∀ b, Touches (verifyChecksum m table length).accesses b ↔ table ≤ b ∧ b < table + length := by
  induction length with
  | zero => exact ⟨readOnly_pure 0, ⟨0, rfl⟩, fun b => ⟨fun h => absurd h touches_pure, by omega⟩⟩
  | succ length ih =>
    obtain ⟨hread, ⟨sum, hsum⟩, htouches⟩ := ih
    refine ⟨readOnly_bind hread fun _ => readOnly_bind readOnly_load fun _ => readOnly_pure _, ?_, ?_⟩
    · rw [verifyChecksum, result_bind, hsum]
      exact ⟨_, rfl⟩
    · intro b
      rw [verifyChecksum, touches_bind, htouches, hsum]
      simp only [Option.some.injEq, exists_eq_left', touches_load_bind, or_iff_left touches_pure]
      omega

theorem parseXsdt_covered_iff {xsdt : Nat} :
    (∀ fuel, Covered ok [xsdt] (parseXsdt m xsdt fuel apic).accesses) ↔ XsdtReadable ok m xsdt := by
  obtain ⟨hread, ⟨sum, hsum⟩, htouches⟩ := verifyChecksum_spec m xsdt (readLE 4 m (xsdt + 4))
  have hloop : (∀ fuel, Covered ok [xsdt]
      (xsdtLoop m xsdt fuel (entryCount (readLE 4 m (xsdt + 4))) 0 apic).accesses) ↔ _ :=
    xsdtLoop_covered_iff (i := 0)
  simp only [Nat.zero_add] at hloop
  simp only [parseXsdt, covered_load_bind, hread.covered_bind, htouches, hsum, Option.some.injEq,
    forall_eq', forall_and, forall_const, hloop, and_imp]
  constructor
  · intro hread
    obtain ⟨hlength, hwhole, _, hentries⟩ := hread
    exact ⟨hlength, hwhole, hentries⟩
  · intro h
    exact ⟨h.length, h.whole, h.length, h.entries⟩

/-! ## The walk from the root pointer -/

/-- The first paragraph of the region with the signature of a root pointer. -/
def rootPointer (m : Memory) : Option Nat :=
  (List.range' regionStart ((regionEnd - regionStart) / 16) 16).find? (fun a => IsAt m a rsdPtr)

theorem scanRegion_spec (m : Memory) (addrs : List Nat) :
    ReadOnly (scanRegion m addrs).accesses ∧
      (scanRegion m addrs).result = some (addrs.find? (fun a => IsAt m a rsdPtr)) ∧
      ∀ b, Touches (scanRegion m addrs).accesses b → ∃ a ∈ addrs, b < a + rsdPtr.length := by
  induction addrs with
  | nil => exact ⟨readOnly_pure none, rfl, fun b hb => absurd hb touches_pure⟩
  | cons addr addrs ih =>
    obtain ⟨hread, hresult, htouches⟩ := ih
    refine ⟨readOnly_bind (readOnly_strcmp m addr rsdPtr) fun differs => ?_, ?_, fun b hb => ?_⟩
    · split
      · exact readOnly_pure _
      · exact hread
    · rw [scanRegion, result_bind, strcmp_result, Option.bind_some]
      by_cases hat : IsAt m addr rsdPtr
      · rw [if_pos hat, if_pos rfl]
        have hfind : (addr :: addrs).find? (fun a => IsAt m a rsdPtr) = some addr :=
          List.find?_cons_of_pos (decide_eq_true hat)
        exact congrArg some hfind.symm
      · rw [if_neg hat, if_neg one_ne_zero, List.find?_cons_of_neg (by simpa using hat), hresult]
    · rw [scanRegion, touches_bind, touches_strcmp] at hb
      rcases hb with ⟨n, hn, rfl, _⟩ | ⟨differs, _, hb⟩
      · exact ⟨addr, List.mem_cons_self, Nat.add_lt_add_left hn addr⟩
      · split at hb
        · exact absurd hb touches_pure
        · obtain ⟨a, ha, hlt⟩ := htouches b hb
          exact ⟨a, List.mem_cons_of_mem _ ha, hlt⟩

theorem mem_region {a : Nat}
    (h : a ∈ List.range' regionStart ((regionEnd - regionStart) / 16) 16) : a < regionEnd := by
  obtain ⟨i, hi, rfl⟩ := List.mem_range'.mp h
  unfold regionStart regionEnd at *
  omega

theorem findXsdp_spec (m : Memory) :
    ReadOnly (findXsdp m).accesses ∧ (findXsdp m).result = some (rootPointer m) ∧
      ∀ b, Touches (findXsdp m).accesses b → Mapped [] b := by
  obtain ⟨hread, hresult, htouches⟩ := scanRegion_spec m
    (List.range' regionStart ((regionEnd - regionStart) / 16) 16)
  refine ⟨hread, hresult, fun b hb => ?_⟩
  obtain ⟨a, ha, hlt⟩ := htouches b hb
  have hregion := mem_region ha
  have hlength : rsdPtr.length = 8 := rfl
  have hend : regionEnd = 0x100000 := rfl
  exact Or.inl (by omega)

theorem hasXsdt_spec (m : Memory) (xsdp : Nat) :
    ReadOnly (hasXsdt m xsdp).accesses ∧
      (hasXsdt m xsdp).result =
        some (decide (2 ≤ (m (xsdp + 15)).toNat ∧ readLE 8 m (xsdp + 24) ≠ 0)) ∧
      ∀ b, Touches (hasXsdt m xsdp).accesses b → b < xsdp + 32 := by
  refine ⟨readOnly_bind readOnly_load fun revision => ?_, ?_, fun b hb => ?_⟩
  · split
    · exact readOnly_bind readOnly_load fun _ => readOnly_pure _
    · exact readOnly_pure _
  · rw [hasXsdt, result_bind]
    show (ite (2 ≤ (m (xsdp + 15)).toNat) _ _ : Traced Bool).result = _
    by_cases hrevision : 2 ≤ (m (xsdp + 15)).toNat
    · rw [if_pos hrevision]
      simp only [hrevision, true_and]
      rfl
    · rw [if_neg hrevision]
      simp only [hrevision, false_and, decide_false]
      rfl
  · rw [hasXsdt, touches_load_bind] at hb
    rcases hb with hb | hb
    · omega
    · split at hb
      · rw [touches_load_bind, or_iff_left touches_pure] at hb
        omega
      · exact absurd hb touches_pure

/-- The tables of the firmware lie so that the walk over them stays on mapped pages:
those listed by the XSDT when the root pointer is of revision 2 and has one, and
otherwise those listed by the RSDT. -/
def TablesMapped (m : Memory) : Prop :=
  ∀ xsdp, rootPointer m = some xsdp →
    if 2 ≤ (m (xsdp + 15)).toNat ∧ readLE 8 m (xsdp + 24) ≠ 0 then
      XsdtReadable Mapped m (readLE 8 m (xsdp + 24))
    else RsdtReadable (Mapped [readLE 4 m (xsdp + 16)]) m (readLE 4 m (xsdp + 16))

/-- Every byte that `parse_acpi` reads of the firmware's memory is mapped when it is read
exactly when the tables lie so. -/
theorem parseAcpi_covered_iff (m : Memory) (apic : Apic) :
    (∀ fuel, Covered Mapped [] (parseAcpi m fuel apic).accesses) ↔ TablesMapped m := by
  obtain ⟨hread, hresult, htouches⟩ := findXsdp_spec m
  simp only [parseAcpi, hread.covered_bind, hresult, forall_and, forall_const, Option.some.injEq,
    forall_eq']
  rw [and_iff_right htouches]
  cases hroot : rootPointer m with
  | none => exact ⟨fun _ xsdp h => absurd (hroot ▸ h) (by simp), fun _ _ => trivial⟩
  | some xsdp =>
    have hregion := mem_region (List.mem_of_find?_eq_some hroot)
    have hlow : ∀ b, b < xsdp + 32 → Mapped [] b := by
      intro b hb
      have hend : regionEnd = 0x100000 := rfl
      exact Or.inl (by omega)
    have hplaced : TablesMapped m ↔
        if 2 ≤ (m (xsdp + 15)).toNat ∧ readLE 8 m (xsdp + 24) ≠ 0 then
          XsdtReadable Mapped m (readLE 8 m (xsdp + 24))
        else RsdtReadable (Mapped [readLE 4 m (xsdp + 16)]) m (readLE 4 m (xsdp + 16)) := by
      simp only [TablesMapped, hroot, Option.some.injEq, forall_eq']
    obtain ⟨hread, hresult, htouches⟩ := hasXsdt_spec m xsdp
    have hfields : ∀ b, Touches (hasXsdt m xsdp).accesses b → Mapped [] b :=
      fun b hb => hlow b (htouches b hb)
    simp only [hread.covered_bind, hresult, forall_and, forall_const, Option.some.injEq, forall_eq',
      decide_eq_true_eq]
    rw [and_iff_right hfields, hplaced]
    by_cases hxsdt : 2 ≤ (m (xsdp + 15)).toNat ∧ readLE 8 m (xsdp + 24) ≠ 0
    · have hfield : ∀ b, xsdp + 24 ≤ b → b < xsdp + 24 + 8 → Mapped [] b :=
        fun b _ hb => hlow b (by omega)
      simp only [if_pos hxsdt, covered_load_bind, covered_grant_bind, and_iff_right hfield,
        parseXsdt_covered_iff]
    · have hfield : ∀ b, xsdp + 16 ≤ b → b < xsdp + 16 + 4 → Mapped [] b :=
        fun b _ hb => hlow b (by omega)
      simp only [if_neg hxsdt, covered_load_bind, covered_grant_bind, and_iff_right hfield,
        parseRsdt_covered_iff]

/-! ## The pages behind the grants -/

/-- A `map_page` call of the walk, which maps an address to itself. -/
def mapCalls (starts : List Nat) : List Call := starts.reverse.map fun v => (v, v)

theorem lookup_append (cs ds : List Call) (v : Nat) :
    lookup (cs ++ ds) v = (lookup cs v).or (lookup ds v) := by
  rw [lookup, lookup, lookup, List.find?_append]
  cases cs.find? _ <;> rfl

theorem lookup_mapCalls {starts : List Nat} (hstarts : ∀ v ∈ starts, v < 2 ^ 47) (hb : b < 2 ^ 47)
    (hpage : ∃ v ∈ starts, b / 4096 = v / 4096) : lookup (mapCalls starts) b = some (b / 4096) := by
  have hsame : ∀ v ∈ starts, path v = path b ↔ v / 4096 = b / 4096 := fun v hv =>
    path_eq_canonical (Or.inl (hstarts v hv)) (Or.inl hb)
  obtain ⟨v, hv, hpage⟩ := hpage
  have hmem : (v, v) ∈ mapCalls starts := List.mem_map.mpr ⟨v, List.mem_reverse.mpr hv, rfl⟩
  refine lookup_of_mem hmem ((hsame v hv).mpr hpage.symm) fun c hc hpath => ?_
  obtain ⟨w, hw, rfl⟩ := List.mem_map.mp hc
  rw [(hsame w (List.mem_reverse.mp hw)).mp hpath]
  omega

/-- After `init_paging` and the walk's calls of `map_page`, with a frame for each table they
need, what is `Mapped` below the kernel's half is mapped to itself. -/
theorem mapped_translates (mem : Memory) {pool : Pool} {framebuffer : Nat} {starts : List Nat}
    (hf : Framed pool) (hal : framebuffer % 4096 = 0) (hend : framebuffer + 6400 * 4096 ≤ 2 ^ 32)
    (hstarts : ∀ v ∈ starts, v < 2 ^ 47)
    (hfree : 1 + (tablePaths (calls framebuffer ++ mapCalls starts)).card ≤ freeFrames pool) :
    ∃ s s', initPaging mem pool framebuffer = some s ∧ run mapCall s (mapCalls starts) = some s' ∧
      ∀ b < 2 ^ 47, Mapped starts b → physicalAddress s'.mem s'.pml b = some b := by
  obtain ⟨pml, pool', s', ha, hrun, hwalk, _⟩ := run_zeroed mem hf hfree
  rw [run_append] at hrun
  obtain ⟨s, hinit, hgrants⟩ := Option.bind_eq_some_iff.mp hrun
  refine ⟨s, s', (initPaging_eq_run framebuffer ha).trans hinit, hgrants, fun b hb hmapped => ?_⟩
  have hlookup : lookup (calls framebuffer ++ mapCalls starts) b = some (b / 4096) := by
    rw [lookup_append]
    by_cases hself : b < 6400 * 4096 ∨ (framebuffer ≤ b ∧ b < framebuffer + 6400 * 4096)
    · rw [lookup_calls_self hal hend (Or.inl hb) hself, Option.some_or]
    · have hkernel : ¬ (kernelStart ≤ b ∧ b < kernelStart + 6400 * 4096) := by
        unfold kernelStart
        omega
      rw [lookup_calls_none hal hend (Or.inl hb) hkernel hself, Option.none_or]
      exact lookup_mapCalls hstarts hb (hmapped.resolve_left fun hlow => hself (Or.inl hlow))
  rw [hwalk, hlookup, Option.map_some, Nat.div_add_mod]

/-! ## A table on another page -/

theorem mapped_more (starts : List Nat) (v b : Nat) (h : Mapped starts b) : Mapped (v :: starts) b :=
  h.imp_right fun ⟨w, hw, hpage⟩ => ⟨w, List.mem_cons_of_mem v hw, hpage⟩

/-- The tables of a machine with 128 MiB: root pointer of revision 0, RSDT at `0x7fe1000`
and its first table on the next page. -/
def sampleFirmware : Memory := fun a =>
  if 0xE0000 ≤ a ∧ a < 0xE0008 then rsdPtr.getD (a - 0xE0000) 0
  else if 0xE0010 ≤ a ∧ a < 0xE0014 then [0x00, 0x10, 0xfe, 0x07].getD (a - 0xE0010) 0
  else if 0x7fe1024 ≤ a ∧ a < 0x7fe1028 then [0x00, 0x20, 0xfe, 0x07].getD (a - 0x7fe1024) 0
  else 0

theorem sampleFirmware_accesses :
    .read 0x7fe2000 1 ∈ (parseAcpi sampleFirmware 0 ⟨0, 0⟩).accesses ∧
      after [] (parseAcpi sampleFirmware 0 ⟨0, 0⟩).accesses = [0x7fe1000] := by
  decide +kernel

/-- The signature of the first table is read on a page that nothing has mapped. -/
theorem parseAcpi_not_covered :
    ¬ ∀ fuel, Covered Mapped [] (parseAcpi sampleFirmware fuel ⟨0, 0⟩).accesses := by
  intro h
  obtain ⟨hread, hgrants⟩ := sampleFirmware_accesses
  have hbyte := (h 0).touched mapped_more ⟨0x7fe2000, 1, hread, Nat.le_refl _, Nat.lt_succ_self _⟩
  rw [hgrants] at hbyte
  rcases hbyte with hlow | ⟨v, hv, hpage⟩
  · exact absurd hlow (by decide)
  · rw [List.mem_singleton.mp hv] at hpage
    exact absurd hpage (by decide)

end PaskakasaOS.Kernel.AcpiCoverage
