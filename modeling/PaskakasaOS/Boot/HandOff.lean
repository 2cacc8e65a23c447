import PaskakasaOS.Boot.SetupLongmode

/-!
# The two addresses on their way to the kernel

`setup_pmode.asm` passes the memory map and the video mode block to `_setup_lmode`,
whose parameters have their names the other way round; `switch64.asm` loads the
arguments of the loader from the 32-bit stack with 64-bit reads, and the loader
passes them on to `start`, where the names change places again.
-/
namespace PaskakasaOS.Boot.HandOff

open Lib.ByteMemory
open Kernel.Memory.Pmm Kernel.Memory.Vmm
open Kernel.Memory.AddressSpace (samplePool samplePool_framed samplePool_free)
open Kernel.Memory.InitPaging
open MapKernel SetupLongmode

/-- Memory and stack pointer of 32-bit code. -/
structure Machine32 where
  mem : Memory
  esp : Nat

def Machine32.push (s : Machine32) (w : Nat) : Machine32 where
  mem := writeLE 4 s.mem (s.esp - 4) w
  esp := s.esp - 4

/-- A call: the last argument is pushed first, the return address last. -/
def Machine32.call (s : Machine32) (args : List Nat) (ret : Nat) : Machine32 :=
  (args.foldr (fun w s => s.push w) s).push ret

/-- Argument `i` of the function that has just been called. -/
def Machine32.arg (s : Machine32) (i : Nat) : Nat := readLE 4 s.mem (s.esp + 4 + 4 * i)

/-- `callC` of `setup_pmode.asm`. -/
def callC (systemInfo entries ret : Nat) (s : Machine32) : Machine32 :=
  s.call [entries, systemInfo] ret

/-- `_setup_lmode` up to its call of `switch_to_64`, with `locals` bytes of its own on
the stack; the first parameter of that call has two words. -/
def setupLmode (T : Tables) (locals ret : Nat) (s : Machine32) : Machine32 :=
  let s : Machine32 := { s with mem := identityMap1gb T s.mem }
  let vesa := s.arg 0
  let memorymap := s.arg 1
  let pml4 := 0x1000 * T.pml4
  ({ s with esp := s.esp - locals } : Machine32).call
    [pml4 % 2 ^ 32, pml4 / 2 ^ 32, vesa, memorymap] ret

/-- The 64-bit machine at the entry of `loader_main`. -/
structure Machine64 where
  mem : Memory
  rsp : Nat
  cr3 : Nat
  rdi : Nat
  rsi : Nat

/-- `switch_to_64` up to `call 0xd000`. -/
def switchTo64 (ebp ret : Nat) (s : Machine32) : Machine64 :=
  let s := s.push ebp
  { mem := writeLE 8 s.mem (s.esp - 8) ret
    rsp := s.esp - 8
    cr3 := readLE 4 s.mem (s.esp + 8)
    rdi := readLE 8 s.mem (s.esp + 16)
    rsi := readLE 8 s.mem (s.esp + 20) }

/-- `loader_main` passes its parameters `vesa` and `memorymap`, both `uint32_t`, to
`start` as `m` and `v`. -/
def startArguments (l : Machine64) : Nat × Nat :=
  let vesa := l.rdi % 2 ^ 32
  let memorymap := l.rsi % 2 ^ 32
  (vesa, memorymap)

/-- The way from `callC` to the loader. -/
def handOff (T : Tables) (systemInfo entries locals ebp : Nat) (rets : Nat → Nat) (s : Machine32) :
    Machine64 :=
  switchTo64 ebp (rets 2) (setupLmode T locals (rets 1) (callC systemInfo entries (rets 0) s))

/-! ## The stack -/

section Stack

variable {s : Machine32} {args : List Nat} {w a i : Nat}

theorem readLE_push_self : readLE 4 (s.push w).mem (s.esp - 4) = w % 2 ^ 32 :=
  readLE_writeLE 4 s.mem _ w

theorem push_above (hroom : 4 ≤ s.esp) (ha : s.esp ≤ a) : (s.push w).mem a = s.mem a :=
  writeLE_outside (Or.inr (by omega))

/-- The stack pointer goes down by the words pushed, and nothing above it changes. -/
theorem pushes_frame (s : Machine32) (args : List Nat) (hroom : 4 * args.length ≤ s.esp) :
    (args.foldr (fun w s => s.push w) s).esp = s.esp - 4 * args.length ∧
      ∀ a, s.esp ≤ a → (args.foldr (fun w s => s.push w) s).mem a = s.mem a := by
  induction args with
  | nil => exact ⟨rfl, fun _ _ => rfl⟩
  | cons w args ih =>
    rw [List.length_cons] at hroom
    obtain ⟨hesp, habove⟩ := ih (by omega)
    rw [List.foldr_cons, List.length_cons]
    refine ⟨?_, fun a ha => ?_⟩
    · show _ - 4 = _
      rw [hesp]
      omega
    · rw [push_above (by omega) (by omega)]
      exact habove a ha

/-- The words stand in the order of the arguments. -/
theorem pushes_read (hroom : 4 * args.length ≤ s.esp) (hi : i < args.length) :
    readLE 4 (args.foldr (fun w s => s.push w) s).mem (s.esp - 4 * args.length + 4 * i) =
      args[i] % 2 ^ 32 := by
  induction args generalizing i with
  | nil => exact absurd hi (Nat.not_lt_zero i)
  | cons w args ih =>
    rw [List.length_cons] at hroom hi ⊢
    obtain ⟨hesp, _⟩ := pushes_frame s args (by omega)
    rw [List.foldr_cons]
    cases i with
    | zero =>
      rw [show s.esp - 4 * (args.length + 1) + 4 * 0 = s.esp - 4 * args.length - 4 by omega, ← hesp]
      exact readLE_push_self
    | succ i =>
      rw [show s.esp - 4 * (args.length + 1) + 4 * (i + 1) = s.esp - 4 * args.length + 4 * i by omega,
        List.getElem_cons_succ, ← ih (by omega) (by omega)]
      apply readLE_congr
      intro j _
      exact push_above (by omega) (by omega)

theorem call_esp (s : Machine32) (args : List Nat) (ret : Nat) (hroom : 4 * args.length + 4 ≤ s.esp) :
    (s.call args ret).esp = s.esp - 4 * args.length - 4 := by
  show _ - 4 = _
  rw [(pushes_frame s args (by omega)).1]

theorem call_above (s : Machine32) (args : List Nat) (ret : Nat)
    (hroom : 4 * args.length + 4 ≤ s.esp) (ha : s.esp ≤ a) : (s.call args ret).mem a = s.mem a := by
  obtain ⟨hesp, habove⟩ := pushes_frame s args (by omega)
  rw [Machine32.call, push_above (by omega) (by omega)]
  exact habove a ha

theorem call_arg (s : Machine32) (args : List Nat) (ret : Nat) (hroom : 4 * args.length + 4 ≤ s.esp)
    (hi : i < args.length) : (s.call args ret).arg i = args[i] % 2 ^ 32 := by
  obtain ⟨hesp, _⟩ := pushes_frame s args (by omega)
  rw [Machine32.arg, call_esp s args ret hroom, ← pushes_read (s := s) (by omega) hi,
    show s.esp - 4 * args.length - 4 + 4 + 4 * i = s.esp - 4 * args.length + 4 * i by omega]
  apply readLE_congr
  intro j _
  exact push_above (by omega) (by omega)

end Stack

/-! ## The tables among the rest of memory -/

/-- An address outside the four arrays. -/
def Outside (T : Tables) (b : Nat) : Prop := ∀ f ∈ T.all, b < 0x1000 * f ∨ 0x1000 * f + 0x1000 ≤ b

theorem setEntry_outside {m : Memory} {t i e b : Nat} (hi : i < 512)
    (hb : b < 0x1000 * t ∨ 0x1000 * t + 0x1000 ≤ b) : setEntry m (0x1000 * t) i e b = m b :=
  writeLE_outside (by omega)

theorem clearEntries_outside {tables : List Nat} {m : Memory} {b : Nat} (i : Fin 512)
    (hb : ∀ f ∈ tables, b < 0x1000 * f ∨ 0x1000 * f + 0x1000 ≤ b) :
    clearEntries tables m i b = m b :=
  foldl_outside fun t ht _ => setEntry_outside i.isLt (hb t ht)

theorem identityMap1gb_outside {T : Tables} {m : Memory} {b : Nat} (hb : Outside T b) :
    identityMap1gb T m b = m b := by
  have hpml4 := hb T.pml4 (by simp [Tables.all])
  have hpud := hb T.pud (by simp [Tables.all])
  have hpmd := hb T.pmd (by simp [Tables.all])
  have hfill : ∀ i ∈ List.range 20, ∀ m, fillEntry T m i b = m b := by
    intro i hi m
    have hlt := List.mem_range.mp hi
    exact setEntry_outside (by omega) hpmd
  rw [identityMap1gb, foldl_outside hfill, setEntry_outside (by decide) hpud,
    setEntry_outside (by decide) hpml4, foldl_outside fun i _ _ => clearEntries_outside i hb]

/-- A stack below the tables is not touched. -/
theorem arg_identityMap1gb {T : Tables} {s : Machine32} {i : Nat}
    (hbelow : ∀ f ∈ T.all, s.esp + 4 + 4 * i + 4 ≤ 0x1000 * f) :
    ({ s with mem := identityMap1gb T s.mem } : Machine32).arg i = s.arg i := by
  apply readLE_congr
  intro j hj
  refine identityMap1gb_outside fun f hf => Or.inl ?_
  have hf := hbelow f hf
  show s.esp + 4 + 4 * i + j < _
  omega

theorem Levels.congr {T : Tables} {m m' : Memory}
    (hsame : ∀ f ∈ T.all, ∀ b, 0x1000 * f ≤ b → m' b = m b) (h : Levels T m) : Levels T m' := by
  have hentry : ∀ f ∈ T.all, ∀ j, entry m' (0x1000 * f) j = entry m (0x1000 * f) j := by
    intro f hf j
    apply readLE_congr
    intro k _
    exact hsame f hf _ (by omega)
  simp only [Tables.all, List.mem_cons, List.not_mem_nil, or_false] at hentry
  constructor
  · intro j hj
    rw [hentry _ (by simp)]
    exact h.pml4 j hj
  · intro j hj
    rw [hentry _ (by simp)]
    exact h.pud j hj
  · intro j hj
    rw [hentry _ (by simp)]
    exact h.pmd j hj

/-! ## The whole way -/

/-- The loader runs on the identity mapping; the addresses arrive where the kernel takes
them for the memory map and the mode block, and memory above the stack is as it was. -/
structure HandedOver (T : Tables) (systemInfo entries : Nat) (s : Machine32) (l : Machine64) :
    Prop where
  memorymaps : (startArguments l).1 = entries
  vesa : (startArguments l).2 = systemInfo
  mapped : ∀ v, Canonical v → translate l.mem l.cr3 v = if v < 20 * 0x200000 then some v else none
  intact : ∀ b, s.esp ≤ b → Outside T b → l.mem b = s.mem b

theorem arg_lt (s : Machine32) (i : Nat) : s.arg i < 2 ^ 32 := readLE_lt 4 s.mem _

theorem setupLmode_spec (T : Tables) {locals : Nat} (ret : Nat) {s : Machine32}
    (hroom : locals + 20 ≤ s.esp) (hbelow : ∀ f ∈ T.all, s.esp + 12 ≤ 0x1000 * f) :
    let s' := setupLmode T locals ret s
    s'.esp = s.esp - locals - 20 ∧ s'.arg 0 = 0x1000 * T.pml4 ∧ s'.arg 2 = s.arg 0 ∧
      s'.arg 3 = s.arg 1 ∧ ∀ a, s.esp ≤ a → s'.mem a = identityMap1gb T s.mem a := by
  have hvesa : ({ s with mem := identityMap1gb T s.mem } : Machine32).arg 0 = s.arg 0 := by
    apply arg_identityMap1gb
    intro f hf
    have hf := hbelow f hf
    omega
  have hmemorymap : ({ s with mem := identityMap1gb T s.mem } : Machine32).arg 1 = s.arg 1 := by
    apply arg_identityMap1gb
    intro f hf
    have hf := hbelow f hf
    omega
  have hlow := T.low T.pml4 (by simp)
  have hstack : 4 * 4 + 4 ≤ s.esp - locals := by omega
  simp only [setupLmode, hvesa, hmemorymap]
  refine ⟨?_, ?_, ?_, ?_, fun a ha => ?_⟩
  · refine (call_esp _ _ ret (by exact hstack)).trans ?_
    show s.esp - locals - 4 * 4 - 4 = _
    omega
  · refine (call_arg _ _ ret (by exact hstack) (by simp)).trans ?_
    show 4096 * T.pml4 % 2 ^ 32 % 2 ^ 32 = 4096 * T.pml4
    omega
  · exact (call_arg _ _ ret (by exact hstack) (by simp)).trans (Nat.mod_eq_of_lt (arg_lt s 0))
  · exact (call_arg _ _ ret (by exact hstack) (by simp)).trans (Nat.mod_eq_of_lt (arg_lt s 1))
  · exact call_above _ _ ret (by exact hstack) (show s.esp - locals ≤ a by omega)

/-- A 64-bit read takes the word above along, which the loader's parameter drops. -/
theorem readLE_eight_mod (m : Memory) (a : Nat) : readLE 8 m a % 2 ^ 32 = readLE 4 m a := by
  rw [show (8 : Nat) = 4 + 4 by rfl, readLE_add]
  have hlt := readLE_lt 4 m a
  omega

theorem switchTo64_spec (ebp ret : Nat) {s : Machine32} (hroom : 12 ≤ s.esp) :
    let l := switchTo64 ebp ret s
    l.cr3 = s.arg 0 ∧ l.rdi % 2 ^ 32 = s.arg 2 ∧ l.rsi % 2 ^ 32 = s.arg 3 ∧
      ∀ a, s.esp ≤ a → l.mem a = s.mem a := by
  have hread : ∀ a, s.esp ≤ a → readLE 4 (s.push ebp).mem a = readLE 4 s.mem a := by
    intro a ha
    apply readLE_congr
    intro j _
    exact push_above (by omega) (by omega)
  have hesp : (s.push ebp).esp = s.esp - 4 := rfl
  simp only [switchTo64, readLE_eight_mod, hesp]
  refine ⟨?_, ?_, ?_, fun a ha => ?_⟩
  · rw [hread _ (by omega), Machine32.arg, show s.esp - 4 + 8 = s.esp + 4 + 4 * 0 by omega]
  · rw [hread _ (by omega), Machine32.arg, show s.esp - 4 + 16 = s.esp + 4 + 4 * 2 by omega]
  · rw [hread _ (by omega), Machine32.arg, show s.esp - 4 + 20 = s.esp + 4 + 4 * 3 by omega]
  · rw [writeLE_outside (by omega)]
    exact push_above (by omega) ha

/-- The addresses come back in order, on top of memory that only the tables have changed. -/
theorem handOff_frame (T : Tables) (systemInfo entries : Nat) {locals : Nat} (ebp : Nat)
    (rets : Nat → Nat) {s : Machine32} (hinfo : systemInfo < 2 ^ 32) (hentries : entries < 2 ^ 32)
    (hroom : locals + 44 ≤ s.esp) (hbelow : ∀ f ∈ T.all, s.esp ≤ 0x1000 * f) :
    let l := handOff T systemInfo entries locals ebp rets s
    startArguments l = (entries, systemInfo) ∧ l.cr3 = 0x1000 * T.pml4 ∧
      ∃ m, (∀ a, s.esp ≤ a → m a = s.mem a) ∧ ∀ a, s.esp ≤ a → l.mem a = identityMap1gb T m a := by
  have hcall : 4 * 2 + 4 ≤ s.esp := by omega
  have hesp : (callC systemInfo entries (rets 0) s).esp = s.esp - 12 := by
    refine (call_esp s [entries, systemInfo] _ hcall).trans ?_
    show s.esp - 4 * 2 - 4 = _
    omega
  have harg0 : (callC systemInfo entries (rets 0) s).arg 0 = entries :=
    (call_arg s [entries, systemInfo] _ hcall (by simp)).trans (Nat.mod_eq_of_lt hentries)
  have harg1 : (callC systemInfo entries (rets 0) s).arg 1 = systemInfo :=
    (call_arg s [entries, systemInfo] _ hcall (by simp)).trans (Nat.mod_eq_of_lt hinfo)
  have habove : ∀ a, s.esp ≤ a → (callC systemInfo entries (rets 0) s).mem a = s.mem a :=
    fun a ha => call_above s [entries, systemInfo] _ hcall ha
  rw [handOff]
  generalize callC systemInfo entries (rets 0) s = s1 at hesp harg0 harg1 habove ⊢
  have hbelow1 : ∀ f ∈ T.all, s1.esp + 12 ≤ 0x1000 * f := by
    intro f hf
    have hf := hbelow f hf
    omega
  obtain ⟨hesp2, hpml4, hvesa, hmemorymap, habove2⟩ :=
    setupLmode_spec T (rets 1) (s := s1) (show locals + 20 ≤ s1.esp by omega) hbelow1
  generalize setupLmode T locals (rets 1) s1 = s2 at hesp2 hpml4 hvesa hmemorymap habove2 ⊢
  obtain ⟨hcr3, hrdi, hrsi, habove3⟩ := switchTo64_spec ebp (rets 2) (s := s2) (by omega)
  refine ⟨?_, hcr3.trans hpml4, s1.mem, habove, fun a ha => ?_⟩
  · rw [startArguments, hrdi, hvesa, harg0, hrsi, hmemorymap, harg1]
  · rw [habove3 a (by omega), habove2 a (by omega)]

theorem handOff_handedOver (T : Tables) {systemInfo entries locals : Nat} (ebp : Nat)
    (rets : Nat → Nat) {s : Machine32} (hinfo : systemInfo < 2 ^ 32) (hentries : entries < 2 ^ 32)
    (hroom : locals + 44 ≤ s.esp) (hbelow : ∀ f ∈ T.all, s.esp ≤ 0x1000 * f) :
    HandedOver T systemInfo entries s (handOff T systemInfo entries locals ebp rets s) := by
  obtain ⟨harguments, hcr3, m, habove, hmem⟩ :=
    handOff_frame T systemInfo entries ebp rets hinfo hentries hroom hbelow
  refine ⟨by rw [harguments], by rw [harguments], fun v hv => ?_, fun b hb hout => ?_⟩
  · have hlevels : Levels T (handOff T systemInfo entries locals ebp rets s).mem := by
      refine Levels.congr (fun f hf b hb => ?_) (levels_identityMap1gb T m)
      exact hmem b ((hbelow f hf).trans hb)
    rw [hcr3, ← translate_identityMap1gb T m hv, hlevels.translate,
      (levels_identityMap1gb T m).translate]
  · rw [hmem b hb, identityMap1gb_outside hout, habove b hb]

/-- The stack of the boot sector. -/
theorem handOff_handedOver_sample :
    HandedOver sampleFirstTables 0x7f00 0x8100 ⟨fun _ => 0, 0x5000⟩
      (handOff sampleFirstTables 0x7f00 0x8100 24 0 (fun _ => 0x7e00) ⟨fun _ => 0, 0x5000⟩) :=
  handOff_handedOver sampleFirstTables 0 (fun _ => 0x7e00) (by decide) (by decide) (by decide)
    (by decide)

/-! ## The three address spaces -/

/-- What keeps its translation over both switches of `cr3` is exactly the first 2 MiB,
where the loader's code, stack and tables are. -/
theorem addressSpaces_agree_iff (T : Tables) (B : BootTables) (first boot m : Memory) {pool : Pool}
    {framebuffer : Nat} (hf : Framed pool) (hal : framebuffer % 4096 = 0)
    (hend : framebuffer + 6400 * 4096 ≤ 2 ^ 32)
    (hfree : framesNeeded framebuffer ≤ freeFrames pool) :
    ∃ s, initPaging m pool framebuffer = some s ∧
      ∀ v, Canonical v →
        ((∃ p, translate (identityMap1gb T first) (0x1000 * T.pml4) v = some p ∧
            physicalAddress (mapKernel B boot) (0x1000 * B.pml4) v = some p ∧
            physicalAddress s.mem s.pml v = some p) ↔ v < 0x200000) := by
  obtain ⟨s, hs, hmap, _⟩ := initPaging_spec m hf hal hend hfree
  refine ⟨s, hs, fun v hv => ?_⟩
  have hk : kernelStart = 0xFFFFFFFF80000000 := rfl
  rw [translate_identityMap1gb T first hv, physicalAddress_mapKernel B boot hv, hmap v hv, bootIntended,
    intended]
  constructor
  · intro h
    obtain ⟨p, hfirst, hboot, _⟩ := h
    by_contra hhigh
    rw [if_neg hhigh] at hboot
    split at hfirst
    · rw [if_neg (by omega)] at hboot
      cases hboot
    · cases hfirst
  · intro hlow
    refine ⟨v, if_pos (by omega), if_pos hlow, ?_⟩
    rw [if_neg (by omega), if_pos (Or.inl (by omega))]

theorem addressSpaces_agree_iff_high :
    ∃ s, initPaging (fun _ => 0) samplePool 0xE0000000 = some s ∧
      ∀ v, Canonical v →
        ((∃ p, translate (identityMap1gb sampleFirstTables (fun _ => 0))
              (0x1000 * sampleFirstTables.pml4) v = some p ∧
            physicalAddress (mapKernel sampleTables (fun _ => 0)) (0x1000 * sampleTables.pml4) v =
              some p ∧
            physicalAddress s.mem s.pml v = some p) ↔ v < 0x200000) :=
  addressSpaces_agree_iff sampleFirstTables sampleTables (fun _ => 0) (fun _ => 0) (fun _ => 0)
    samplePool_framed (by decide) (by decide)
    ((framesNeeded_le (by decide)).trans (by rw [samplePool_free]; decide))

end PaskakasaOS.Boot.HandOff
