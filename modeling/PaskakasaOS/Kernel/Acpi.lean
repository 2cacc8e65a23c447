import PaskakasaOS.Lib.AccessTrace

/-!
# `kernel/acpi.c`

The search for the root pointer and the walk over the tables of the firmware, as a
sequence of reads of the firmware's memory and of `map_page` calls. Addresses are
the ones the kernel uses: a table is read at its own physical address. What the
functions print, other than a table's signature, is left out.
-/
namespace PaskakasaOS.Kernel.Acpi

open Lib.ByteMemory Lib.AccessTrace Lib.AccessTrace.Traced

def regionStart : Nat := 0x000E0000
def regionEnd : Nat := 0x00100000

/-- The global `apic_t`. -/
structure Apic where
  localApic : Nat
  ioApic : Nat

/-! ## Strings -/

/-- `"RSD PTR "` -/
def rsdPtr : List UInt8 := [0x52, 0x53, 0x44, 0x20, 0x50, 0x54, 0x52, 0x20]

/-- `"APIC"` -/
def apicSignature : List UInt8 := [0x41, 0x50, 0x49, 0x43]

/-- `strcmp` of the memory at `str1` with a string of the kernel: it stops at the first
character that differs. -/
def strcmp (m : Memory) : Nat → List UInt8 → Traced Nat
  | _, [] => pure 0
  | str1, c :: str2 => do
    let _ ← load 1 m str1
    if m str1 ≠ c then pure 1 else strcmp m (str1 + 1) str2

/-- `strlen`; it does not return when the rest of the address space has no zero. -/
def strlen (m : Memory) : Nat → Nat → Traced Nat
  | 0, _ => stop
  | rest + 1, str => do
    let _ ← load 1 m str
    if m str = 0 then pure 0
    else do
      let n ← strlen m rest (str + 1)
      pure (n + 1)

/-- `print`, which counts the characters and reads the counted ones again; `mem.h`
declares `strlen` with an 8-bit result. -/
def print (m : Memory) (str : Nat) : Traced Unit := do
  let len ← strlen m (2 ^ 64) str
  let _ ← load (len % 2 ^ 8) m str
  pure ()

/-! ## The interrupt controllers -/

/-- A record of the MADT: the field the `switch` reads, by the type of the record. -/
def readRecord (m : Memory) (entries : Nat) (apic : Apic) : Traced Apic := do
  let type ← load 1 m entries
  if type = 0 then do
    let _ ← load 1 m (entries + 2)
    pure apic
  else if type = 1 then do
    let address ← load 4 m (entries + 4)
    pure { apic with ioApic := address }
  else pure apic

/-- The `while` over the records, with at most `fuel` rounds. -/
def readRecords (m : Memory) (finish : Nat) : Nat → Nat → Apic → Traced Apic
  | 0, _, _ => stop
  | fuel + 1, entries, apic =>
    if entries < finish then do
      let apic ← readRecord m entries apic
      let length ← load 1 m (entries + 1)
      readRecords m finish fuel (entries + length) apic
    else pure apic

/-- The branch for the table with signature `APIC`. -/
def parseMadt (m : Memory) (madt fuel : Nat) (apic : Apic) : Traced Apic := do
  let length ← load 4 m (madt + 4)
  let address ← load 4 m (madt + 36)
  readRecords m (madt + length) fuel (madt + 44) { apic with localApic := address }

/-! ## The two root tables -/

/-- The loop of `parse_rsdt` from `sdt_index` on, with `rest` rounds to go. -/
def rsdtLoop (m : Memory) (rsdt fuel : Nat) : Nat → Nat → Apic → Traced Apic
  | 0, _, apic => pure apic
  | rest + 1, sdtIndex, apic => do
    let table ← load 4 m (rsdt + 36 + 4 * sdtIndex)
    let differs ← strcmp m table apicSignature
    if differs = 0 then parseMadt m table fuel apic
    else rsdtLoop m rsdt fuel rest (sdtIndex + 1) apic

def parseRsdt (m : Memory) (rsdt fuel : Nat) (apic : Apic) : Traced Apic :=
  rsdtLoop m rsdt fuel 25 0 apic

/-- `verify_checksum` after `length` rounds of its loop. -/
def verifyChecksum (m : Memory) (table : Nat) : Nat → Traced UInt8
  | 0 => pure 0
  | length + 1 => do
    let sum ← verifyChecksum m table length
    let _ ← load 1 m (table + length)
    pure (sum + m (table + length))

def swapUpperLower (value : UInt64) : UInt64 :=
  let lower := value.toUInt32
  let upper := (value >>> 32).toUInt32
  (lower.toUInt64 <<< 32) ||| upper.toUInt64

/-- `entry_count`: the difference is a `size_t`, the quotient is stored in 32 bits. -/
def entryCount (length : Nat) : Nat := (UInt64.ofNat length - 36).toNat / 8 % 2 ^ 32

/-- The table of `sdt_addresses[sdt_index]`. The header has 36 bytes, but the array has
the alignment of its elements: the attribute on the type's name packs nothing. -/
def xsdtTable (m : Memory) (xsdt sdtIndex : Nat) : Nat :=
  (swapUpperLower (UInt64.ofNat (readLE 8 m (xsdt + 40 + 8 * sdtIndex)))).toNat

/-- The loop of `parse_xsdt` from `sdt_index` on, with `rest` rounds to go. -/
def xsdtLoop (m : Memory) (xsdt fuel : Nat) : Nat → Nat → Apic → Traced Apic
  | 0, _, apic => pure apic
  | rest + 1, sdtIndex, apic => do
    let _ ← load 8 m (xsdt + 40 + 8 * sdtIndex)
    let table := xsdtTable m xsdt sdtIndex
    grant table
    print m table
    let differs ← strcmp m table apicSignature
    if differs = 0 then parseMadt m table fuel apic
    else xsdtLoop m xsdt fuel rest (sdtIndex + 1) apic

def parseXsdt (m : Memory) (xsdt fuel : Nat) (apic : Apic) : Traced Apic := do
  let length ← load 4 m (xsdt + 4)
  let _ ← verifyChecksum m xsdt length
  let length ← load 4 m (xsdt + 4)
  xsdtLoop m xsdt fuel (entryCount length) 0 apic

/-! ## The root pointer -/

/-- The loop of `find_xsdp`. -/
def scanRegion (m : Memory) : List Nat → Traced (Option Nat)
  | [] => pure none
  | addr :: rest => do
    let differs ← strcmp m addr rsdPtr
    if differs = 0 then pure (some addr) else scanRegion m rest

def findXsdp (m : Memory) : Traced (Option Nat) :=
  scanRegion m (List.range' regionStart ((regionEnd - regionStart) / 16) 16)

/-- `xsdp->revision >= 2 && xsdp->xsdt_address != 0` -/
def hasXsdt (m : Memory) (xsdp : Nat) : Traced Bool := do
  let revision ← load 1 m (xsdp + 15)
  if 2 ≤ revision then do
    let address ← load 8 m (xsdp + 24)
    pure (decide (address ≠ 0))
  else pure false

/-- `parse_acpi`. Interrupts are off, so nothing follows the `hlt` for a missing root pointer. -/
def parseAcpi (m : Memory) (fuel : Nat) (apic : Apic) : Traced Apic := do
  match ← findXsdp m with
  | none => stop
  | some xsdp =>
    if ← hasXsdt m xsdp then do
      let xsdt ← load 8 m (xsdp + 24)
      grant xsdt
      parseXsdt m xsdt fuel apic
    else do
      let rsdt ← load 4 m (xsdp + 16)
      grant rsdt
      parseRsdt m rsdt fuel apic

end PaskakasaOS.Kernel.Acpi
