import PaskakasaOS.Boot.MapKernel

/-!
# The first page tables

`identity_map_1gb` of `bootloader/setup_longmode.c` fills one table of 2 MiB pages.
Of the gigabyte in its name it maps the first twenty pages.
-/
namespace PaskakasaOS.Boot.SetupLongmode

open Lib.ByteMemory
open Kernel.Memory.Vmm Kernel.Memory.VmmTree
open Kernel.Memory.PageRuns (pml4Index_eq pudIndex_eq pmdIndex_eq ptIndex_eq)
open Kernel.Memory.InitPaging (Canonical)
open MapKernel (clearEntries tableEntry)

/-- The frames of the four static arrays, each `aligned(4096)` and 4096 bytes long. -/
structure Tables where
  pml4 : Nat
  pud : Nat
  pmd : Nat
  pmd2 : Nat
  distinct : [pml4, pud, pmd, pmd2].Nodup
  low : ∀ f ∈ [pml4, pud, pmd, pmd2], f < 2 ^ 19

def Tables.all (T : Tables) : List Nat := [T.pml4, T.pud, T.pmd, T.pmd2]

/-- The body of the last loop. -/
def fillEntry (T : Tables) (m : Memory) (i : Nat) : Memory :=
  setEntry m (0x1000 * T.pmd) i ((i * 0x200000) ||| 0b10000011)

def identityMap1gb (T : Tables) (m : Memory) : Memory :=
  let m := (List.finRange 512).foldl (clearEntries T.all) m
  let m := setEntry m (0x1000 * T.pml4) 0 (tableEntry T.pud)
  let m := setEntry m (0x1000 * T.pud) 0 (tableEntry T.pmd)
  (List.range 20).foldl (fillEntry T) m

/-! ## The walk with large pages -/

/-- The bit of an upper entry that ends the walk there. -/
def PAGE_SIZE : Nat := 1 <<< 7

/-- The physical address of `v`, where an entry of the second or third level may be
a page of 1 GiB or 2 MiB. -/
def translate (m : Memory) (pml v : Nat) : Option Nat := do
  let pud ← target m pml (pml4Index v)
  let pmd ← target m pud (pudIndex v)
  if entry m pud (pudIndex v) &&& PAGE_SIZE ≠ 0 then
    some (entry m pud (pudIndex v) / 2 ^ 30 % 2 ^ 22 * 2 ^ 30 + v % 2 ^ 30)
  else
    let pt ← target m pmd (pmdIndex v)
    if entry m pmd (pmdIndex v) &&& PAGE_SIZE ≠ 0 then
      some (entry m pmd (pmdIndex v) / 2 ^ 21 % 2 ^ 31 * 2 ^ 21 + v % 2 ^ 21)
    else (target m pt (ptIndex v)).map (· + v % 0x1000)

/-! ## The entries -/

section Entries

variable (m : Memory) {t f i j e : Nat}

theorem entry_setEntry (hi : i < 512) (hj : j < 512) :
    entry (setEntry m (0x1000 * t) i e) (0x1000 * f) j =
      if f = t ∧ j = i then e % 2 ^ 64 else entry m (0x1000 * f) j := by
  by_cases h : f = t ∧ j = i
  · obtain ⟨rfl, rfl⟩ := h
    rw [if_pos ⟨rfl, rfl⟩, entry_setEntry_same]
  · rw [if_neg h, entry_setEntry_other (by omega)]

theorem entry_clearEntries (tables : List Nat) (i : Fin 512) (hj : j < 512) :
    entry (clearEntries tables m i) (0x1000 * f) j =
      if f ∈ tables ∧ j = i then 0 else entry m (0x1000 * f) j := by
  induction tables generalizing m with
  | nil => simp [clearEntries]
  | cons t tables ih =>
    have hrest := ih (setEntry m (0x1000 * t) i 0)
    rw [entry_setEntry m i.isLt hj] at hrest
    show entry (clearEntries tables (setEntry m (0x1000 * t) i 0) i) (0x1000 * f) j = _
    rw [hrest]
    by_cases hin : f ∈ tables ∧ j = i
    · rw [if_pos hin, if_pos ⟨List.mem_cons_of_mem t hin.1, hin.2⟩]
    · rw [if_neg hin]
      by_cases ht : f = t ∧ j = i
      · rw [if_pos ht, if_pos ⟨ht.1 ▸ List.mem_cons_self, ht.2⟩]
        rfl
      · rw [if_neg ht, if_neg]
        rintro ⟨hmem, hji⟩
        rcases List.mem_cons.mp hmem with rfl | hmem
        · exact ht ⟨rfl, hji⟩
        · exact hin ⟨hmem, hji⟩

theorem entry_clearLoop (tables : List Nat) (is : List (Fin 512)) (j : Fin 512) :
    entry (is.foldl (clearEntries tables) m) (0x1000 * f) j =
      if f ∈ tables ∧ j ∈ is then 0 else entry m (0x1000 * f) j := by
  induction is generalizing m with
  | nil => simp
  | cons i is ih =>
    rw [List.foldl_cons, ih, entry_clearEntries m tables i j.isLt]
    by_cases hf : f ∈ tables <;> by_cases hj : j ∈ is <;> by_cases hi : j.val = i.val <;>
      simp [hf, hj, hi, Fin.ext_iff]

theorem entry_fillLoop (T : Tables) {n : Nat} (hn : n ≤ 512) (hj : j < 512) :
    entry ((List.range n).foldl (fillEntry T) m) (0x1000 * f) j =
      if f = T.pmd ∧ j < n then ((j * 0x200000) ||| 0b10000011) % 2 ^ 64
      else entry m (0x1000 * f) j := by
  induction n with
  | zero => simp
  | succ n ih =>
    rw [List.range_succ, List.foldl_append, List.foldl_cons, List.foldl_nil, fillEntry,
      entry_setEntry _ (by omega) hj, ih (by omega)]
    by_cases hf : f = T.pmd
    · by_cases hjn : j = n
      · subst hjn
        rw [if_pos ⟨hf, rfl⟩, if_pos ⟨hf, Nat.lt_succ_self j⟩]
      · rw [if_neg (fun h => hjn h.2)]
        by_cases hlt : j < n
        · rw [if_pos ⟨hf, hlt⟩, if_pos ⟨hf, by omega⟩]
        · rw [if_neg (fun h => hlt h.2), if_neg (fun h => hjn (by omega))]
    · rw [if_neg (fun h => hf h.1), if_neg (fun h => hf h.1), if_neg (fun h => hf h.1)]

end Entries

theorem Tables.ne (T : Tables) :
    (T.pml4 ≠ T.pud ∧ T.pml4 ≠ T.pmd ∧ T.pml4 ≠ T.pmd2) ∧ (T.pud ≠ T.pmd ∧ T.pud ≠ T.pmd2) ∧
      T.pmd ≠ T.pmd2 := by
  simpa using T.distinct

/-- The entries the processor meets on its way. -/
structure Levels (T : Tables) (m : Memory) : Prop where
  pml4 : ∀ j < 512, entry m (0x1000 * T.pml4) j = if j = 0 then tableEntry T.pud % 2 ^ 64 else 0
  pud : ∀ j < 512, entry m (0x1000 * T.pud) j = if j = 0 then tableEntry T.pmd % 2 ^ 64 else 0
  pmd : ∀ j < 512, entry m (0x1000 * T.pmd) j =
    if j < 20 then ((j * 0x200000) ||| 0b10000011) % 2 ^ 64 else 0

theorem levels_identityMap1gb (T : Tables) (m : Memory) : Levels T (identityMap1gb T m) := by
  obtain ⟨⟨h12, h13, _⟩, ⟨h23, _⟩, _⟩ := T.ne
  have hclear : ∀ f ∈ T.all, ∀ j < 512,
      entry ((List.finRange 512).foldl (clearEntries T.all) m) (0x1000 * f) j = 0 := by
    intro f hf j hj
    rw [entry_clearLoop m T.all (List.finRange 512) ⟨j, hj⟩, if_pos ⟨hf, List.mem_finRange _⟩]
  simp only [Tables.all, List.mem_cons, List.not_mem_nil, or_false] at hclear
  constructor
  all_goals
    intro j hj
    rw [identityMap1gb, entry_fillLoop _ T (by decide) hj, entry_setEntry _ (by decide) hj,
      entry_setEntry _ (by decide) hj, Tables.all, hclear _ (by simp) j hj]
  · rw [if_neg (fun h => h13 h.1), if_neg (fun h => h12 h.1)]
    simp
  · rw [if_neg (fun h => h23 h.1), if_neg (fun h : T.pud = T.pml4 ∧ _ => h12 h.1.symm)]
    simp
  · rw [if_neg (fun h : T.pmd = T.pud ∧ _ => h23 h.1.symm),
      if_neg (fun h : T.pmd = T.pml4 ∧ _ => h13 h.1.symm)]
    simp

/-! ## The address space -/

theorem target_eq_decode (m : Memory) (f : Nat) {i : Nat} (hi : i < 512) :
    target m (0x1000 * f) i = (decode (entry m (0x1000 * f) i)).map (4096 * ·) :=
  target_eq m f ⟨i, hi⟩

theorem tableEntry_pageSize (f : Nat) : tableEntry f &&& PAGE_SIZE = 0 := by
  have hbit : (tableEntry f).testBit 7 = false := by
    rw [tableEntry, Nat.testBit_or, show (0xFFFFFFFFFF000 : Nat) = ADDRESS_MASK by rfl,
      and_address_mask, show (4096 : Nat) = 2 ^ 12 by rfl, Nat.testBit_two_pow_mul]
    rfl
  rw [show PAGE_SIZE = 2 ^ 7 by rfl, Nat.and_two_pow, hbit]
  rfl

/-- Every large page is present, marked as one, and stands for its own address. -/
theorem largePage {i : Nat} (hi : i < 20) :
    decode ((i * 0x200000) ||| 0b10000011) ≠ none ∧
      ((i * 0x200000) ||| 0b10000011) % 2 ^ 64 = ((i * 0x200000) ||| 0b10000011) ∧
      ((i * 0x200000) ||| 0b10000011) &&& PAGE_SIZE ≠ 0 ∧
      ((i * 0x200000) ||| 0b10000011) / 2 ^ 21 % 2 ^ 31 = i := by
  have hall : ∀ i : Fin 20, decode ((i.val * 0x200000) ||| 0b10000011) ≠ none ∧
      ((i.val * 0x200000) ||| 0b10000011) % 2 ^ 64 = ((i.val * 0x200000) ||| 0b10000011) ∧
      ((i.val * 0x200000) ||| 0b10000011) &&& PAGE_SIZE ≠ 0 ∧
      ((i.val * 0x200000) ||| 0b10000011) / 2 ^ 21 % 2 ^ 31 = i.val := by decide
  exact hall ⟨i, hi⟩

/-- What an entry of the chain of tables leads to. -/
theorem target_table {m : Memory} {t f i : Nat} (hi : i < 512) (hf : f < 2 ^ 40)
    (he : entry m (0x1000 * t) i = tableEntry f % 2 ^ 64) :
    target m (0x1000 * t) i = some (0x1000 * f) := by
  rw [target_eq_decode m t hi, he, decode_mod, MapKernel.decode_tableEntry hf]
  rfl

theorem target_zero {m : Memory} {t i : Nat} (hi : i < 512) (he : entry m (0x1000 * t) i = 0) :
    target m (0x1000 * t) i = none := by
  rw [target_eq_decode m t hi, he]
  rfl

theorem Levels.translate {T : Tables} {m : Memory} (h : Levels T m) (v : Nat) :
    translate m (0x1000 * T.pml4) v =
      if pml4Index v = 0 ∧ pudIndex v = 0 ∧ pmdIndex v < 20 then
        some (pmdIndex v * 2 ^ 21 + v % 2 ^ 21) else none := by
  have hlow := T.low
  have hpml4 := h.pml4 (pml4Index v) (pml4Index_lt v)
  have hpud := h.pud (pudIndex v) (pudIndex_lt v)
  have hpmd := h.pmd (pmdIndex v) (pmdIndex_lt v)
  by_cases h4 : pml4Index v = 0
  · rw [if_pos h4] at hpml4
    have hfirst : target m (0x1000 * T.pml4) (pml4Index v) = some (0x1000 * T.pud) :=
      target_table (pml4Index_lt v) ((hlow T.pud (by simp)).trans (by decide)) hpml4
    by_cases h3 : pudIndex v = 0
    · rw [if_pos h3] at hpud
      have hsecond : target m (0x1000 * T.pud) (pudIndex v) = some (0x1000 * T.pmd) :=
        target_table (pudIndex_lt v) ((hlow T.pmd (by simp)).trans (by decide)) hpud
      have hsmall : entry m (0x1000 * T.pud) (pudIndex v) &&& PAGE_SIZE = 0 := by
        have hlt : tableEntry T.pmd < 2 ^ 64 := by
          rw [tableEntry]
          exact Nat.or_lt_two_pow (Nat.and_lt_two_pow _ (by decide)) (by decide)
        rw [hpud, Nat.mod_eq_of_lt hlt]
        exact tableEntry_pageSize T.pmd
      by_cases h2 : pmdIndex v < 20
      · obtain ⟨hpresent, hmod, hlarge, hframe⟩ := largePage h2
        rw [if_pos h2, hmod] at hpmd
        have hthird : target m (0x1000 * T.pmd) (pmdIndex v) ≠ none := by
          rw [target_eq_decode m T.pmd (pmdIndex_lt v), hpmd]
          exact fun hnone => hpresent (Option.map_eq_none_iff.mp hnone)
        obtain ⟨page, hpage⟩ := Option.ne_none_iff_exists'.mp hthird
        rw [SetupLongmode.translate, hfirst, Option.bind_eq_bind, Option.bind_some, hsecond,
          Option.bind_some, if_neg (not_not.mpr hsmall), hpage,
          Option.bind_some, hpmd, if_pos hlarge, hframe, if_pos ⟨h4, h3, h2⟩]
      · rw [if_neg h2] at hpmd
        have hthird := target_zero (pmdIndex_lt v) hpmd
        rw [SetupLongmode.translate, hfirst, Option.bind_eq_bind, Option.bind_some, hsecond,
          Option.bind_some, if_neg (not_not.mpr hsmall), hthird,
          if_neg (fun hin => h2 hin.2.2)]
        rfl
    · rw [if_neg h3] at hpud
      have hsecond := target_zero (pudIndex_lt v) hpud
      rw [SetupLongmode.translate, hfirst, Option.bind_eq_bind, Option.bind_some, hsecond,
        if_neg (fun hin => h3 hin.2.1)]
      rfl
  · rw [if_neg h4] at hpml4
    have hfirst := target_zero (pml4Index_lt v) hpml4
    rw [SetupLongmode.translate, hfirst, if_neg (fun hin => h4 hin.1)]
    rfl

/-- Twenty large pages, each at its own address, are all that is mapped. -/
theorem translate_identityMap1gb (T : Tables) (m : Memory) {v : Nat} (hv : Canonical v) :
    translate (identityMap1gb T m) (0x1000 * T.pml4) v =
      if v < 20 * 0x200000 then some v else none := by
  rw [(levels_identityMap1gb T m).translate, pml4Index_eq, pudIndex_eq, pmdIndex_eq]
  unfold Canonical at hv
  by_cases hlow : v < 20 * 0x200000
  · rw [if_pos hlow, if_pos (by omega)]
    refine congrArg some ?_
    omega
  · rw [if_neg hlow, if_neg (by omega)]

/-- The tables of a build in which the first stage ends at 0x8200. -/
def sampleFirstTables : Tables where
  pml4 := 9
  pud := 10
  pmd := 11
  pmd2 := 12
  distinct := by decide
  low := by decide

/-- The loader's address. -/
theorem translate_identityMap1gb_loader :
    translate (identityMap1gb sampleFirstTables (fun _ => 0)) (0x1000 * sampleFirstTables.pml4) 0xd000 =
      if 0xd000 < 20 * 0x200000 then some 0xd000 else none :=
  translate_identityMap1gb sampleFirstTables (fun _ => 0) (Or.inl (by decide))

end PaskakasaOS.Boot.SetupLongmode
