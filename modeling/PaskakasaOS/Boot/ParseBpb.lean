import Mathlib.Tactic.Linarith
import PaskakasaOS.Kernel.Storage.Fat32
import PaskakasaOS.Lib.PackedRecord

/-!
# `parse_bpb` of `bootloader/stage2.c`

The loader can read a BIOS parameter block byte by byte; loader and kernel copy it
into a packed structure instead. The two give the same fields.
-/
namespace PaskakasaOS.Boot.ParseBpb

open Lib.ByteMemory Lib.PackedRecord
open Kernel.Utils.Mem (memmoveInto memmoveInto_inside)

/-- `struct BPB`. -/
@[ext]
structure BPB where
  firstBytes : Fin 3 → UInt8
  oemIdentifier : Fin 8 → UInt8
  bytesPerSector : UInt16
  sectorsPerCluster : UInt8
  reserverdSectors : UInt16
  numberOfFats : UInt8
  numberOfRoots : UInt16
  numberOfLvolumeSectors : UInt16
  mediaDescType : UInt8
  notused : UInt16
  sectorsPerTrack : UInt16
  headsNum : UInt16
  hiddenSectorsNum : UInt32
  lsectorsCount : UInt32
  sectorsPerFat : UInt32
  flagsEpb : UInt16
  version : UInt16
  rootDirectoryClusterNumber : UInt32
  fsinfoSectorNum : UInt16

/-! ## The parser -/

/-- `(*bytes) | *(bytes+1) << 8` -/
def word (m : Memory) (bytes : Nat) : UInt16 :=
  ((m bytes).toUInt32 ||| ((m (bytes + 1)).toUInt32 <<< 8)).toUInt16

/-- `(*bytes) | *(bytes+1) << 8 | *(bytes+2) << 16 | *(bytes+3) << 24`, in the 32 bits of
an `int`. -/
def dword (m : Memory) (bytes : Nat) : UInt32 :=
  (m bytes).toUInt32 ||| ((m (bytes + 1)).toUInt32 <<< 8) ||| ((m (bytes + 2)).toUInt32 <<< 16) |||
    ((m (bytes + 3)).toUInt32 <<< 24)

/-- `parse_bpb`, with the place where `bytes` ends up. -/
def parseBpb (m : Memory) (bytes : Nat) : BPB × Nat :=
  let firstBytes := fun i : Fin 3 => m (bytes + i)
  let bytes := bytes + 3
  let oemIdentifier := fun i : Fin 8 => m (bytes + i)
  let bytes := bytes + 8
  let bytesPerSector := word m bytes
  let bytes := bytes + 2
  let sectorsPerCluster := m bytes
  let bytes := bytes + 1
  let reserverdSectors := word m bytes
  let bytes := bytes + 2
  let numberOfFats := m bytes
  let bytes := bytes + 1
  let numberOfRoots := word m bytes
  let bytes := bytes + 2
  let numberOfLvolumeSectors := word m bytes
  let bytes := bytes + 2
  let mediaDescType := m bytes
  let bytes := bytes + 1
  let notused := word m bytes
  let bytes := bytes + 2
  let sectorsPerTrack := word m bytes
  let bytes := bytes + 2
  let headsNum := word m bytes
  let bytes := bytes + 2
  let hiddenSectorsNum := dword m bytes
  let bytes := bytes + 4
  let lsectorsCount := dword m bytes
  let bytes := bytes + 4
  let sectorsPerFat := dword m bytes
  let bytes := bytes + 4
  let flagsEpb := word m bytes
  let bytes := bytes + 2
  let version := word m bytes
  let bytes := bytes + 2
  let rootDirectoryClusterNumber := dword m bytes
  let bytes := bytes + 4
  let fsinfoSectorNum := word m bytes
  let bytes := bytes + 2
  ({ firstBytes, oemIdentifier, bytesPerSector, sectorsPerCluster, reserverdSectors, numberOfFats,
     numberOfRoots, numberOfLvolumeSectors, mediaDescType, notused, sectorsPerTrack, headsNum,
     hiddenSectorsNum, lsectorsCount, sectorsPerFat, flagsEpb, version, rootDirectoryClusterNumber,
     fsinfoSectorNum }, bytes)

/-! ## The packed structure -/

/-- The widths of the fields, the two arrays byte by byte. -/
def bpbWidths : List Nat :=
  [1, 1, 1, 1, 1, 1, 1, 1, 1, 1, 1, 2, 1, 2, 1, 2, 2, 1, 2, 2, 2, 4, 4, 4, 2, 2, 4, 2]

/-- The fields of the structure at `a`. -/
def BPB.packed (m : Memory) (a : Nat) : BPB :=
  let f := getField bpbWidths m a
  { firstBytes := fun i : Fin 3 => UInt8.ofNat (f i)
    oemIdentifier := fun i : Fin 8 => UInt8.ofNat (f (3 + i))
    bytesPerSector := UInt16.ofNat (f 11)
    sectorsPerCluster := UInt8.ofNat (f 12)
    reserverdSectors := UInt16.ofNat (f 13)
    numberOfFats := UInt8.ofNat (f 14)
    numberOfRoots := UInt16.ofNat (f 15)
    numberOfLvolumeSectors := UInt16.ofNat (f 16)
    mediaDescType := UInt8.ofNat (f 17)
    notused := UInt16.ofNat (f 18)
    sectorsPerTrack := UInt16.ofNat (f 19)
    headsNum := UInt16.ofNat (f 20)
    hiddenSectorsNum := UInt32.ofNat (f 21)
    lsectorsCount := UInt32.ofNat (f 22)
    sectorsPerFat := UInt32.ofNat (f 23)
    flagsEpb := UInt16.ofNat (f 24)
    version := UInt16.ofNat (f 25)
    rootDirectoryClusterNumber := UInt32.ofNat (f 26)
    fsinfoSectorNum := UInt16.ofNat (f 27) }

/-- The values of the fields, in their order. -/
def BPB.values (b : BPB) : List Nat :=
  [(b.firstBytes 0).toNat, (b.firstBytes 1).toNat, (b.firstBytes 2).toNat,
    (b.oemIdentifier 0).toNat, (b.oemIdentifier 1).toNat, (b.oemIdentifier 2).toNat,
    (b.oemIdentifier 3).toNat, (b.oemIdentifier 4).toNat, (b.oemIdentifier 5).toNat,
    (b.oemIdentifier 6).toNat, (b.oemIdentifier 7).toNat, b.bytesPerSector.toNat,
    b.sectorsPerCluster.toNat, b.reserverdSectors.toNat, b.numberOfFats.toNat,
    b.numberOfRoots.toNat, b.numberOfLvolumeSectors.toNat, b.mediaDescType.toNat, b.notused.toNat,
    b.sectorsPerTrack.toNat, b.headsNum.toNat, b.hiddenSectorsNum.toNat, b.lsectorsCount.toNat,
    b.sectorsPerFat.toNat, b.flagsEpb.toNat, b.version.toNat, b.rootDirectoryClusterNumber.toNat,
    b.fsinfoSectorNum.toNat]

/-- The structure as a formatter stores it. -/
def BPB.store (b : BPB) (m : Memory) (a : Nat) : Memory := storeFields bpbWidths m a b.values 28

/-! ## Words -/

/-- Bits above those of `low`. -/
theorem or_shiftLeft {low k : Nat} (high : Nat) (h : low < 2 ^ k) :
    low ||| high <<< k = low + 2 ^ k * high := by
  rw [Nat.or_comm, Nat.shiftLeft_eq, Nat.mul_comm high, ← Nat.two_pow_add_eq_or_of_lt h, Nat.add_comm]

theorem shiftLeft_lt {n k : Nat} (hn : n < 256) (hk : k ≤ 24) : n <<< k < 2 ^ 32 := by
  have hpow : 2 ^ k ≤ 2 ^ 24 := Nat.pow_le_pow_right (by decide) hk
  rw [Nat.shiftLeft_eq]
  nlinarith

theorem word_eq (m : Memory) (a : Nat) : word m a = UInt16.ofNat (readLE 2 m a) := by
  have h0 := (m a).toNat_lt
  have h1 := (m (a + 1)).toNat_lt
  apply UInt16.toNat_inj.mp
  simp only [word, readLE, UInt32.toNat_toUInt16, UInt32.toNat_or, UInt32.toNat_shiftLeft,
    UInt8.toNat_toUInt32, UInt32.toNat_ofNat, UInt16.toNat_ofNat']
  rw [show 8 % 2 ^ 32 % 32 = 8 by decide, Nat.mod_eq_of_lt (shiftLeft_lt h1 (by decide)),
    or_shiftLeft _ h0]
  omega

theorem dword_eq (m : Memory) (a : Nat) : dword m a = UInt32.ofNat (readLE 4 m a) := by
  have h0 := (m a).toNat_lt
  have h1 := (m (a + 1)).toNat_lt
  have h2 := (m (a + 2)).toNat_lt
  have h3 := (m (a + 3)).toNat_lt
  have hlow : (m a).toNat + 2 ^ 8 * (m (a + 1)).toNat < 2 ^ 16 := by omega
  have hmid : (m a).toNat + 2 ^ 8 * (m (a + 1)).toNat + 2 ^ 16 * (m (a + 2)).toNat < 2 ^ 24 := by omega
  apply UInt32.toNat_inj.mp
  simp only [dword, readLE, UInt32.toNat_or, UInt32.toNat_shiftLeft, UInt8.toNat_toUInt32,
    UInt32.toNat_ofNat, UInt32.toNat_ofNat']
  rw [show 8 % 2 ^ 32 % 32 = 8 by decide, show 16 % 2 ^ 32 % 32 = 16 by decide,
    show 24 % 2 ^ 32 % 32 = 24 by decide, Nat.mod_eq_of_lt (shiftLeft_lt h1 (by decide)),
    Nat.mod_eq_of_lt (shiftLeft_lt h2 (by decide)), Nat.mod_eq_of_lt (shiftLeft_lt h3 (by decide)),
    or_shiftLeft _ h0, or_shiftLeft _ hlow, or_shiftLeft _ hmid]
  show _ = ((m a).toNat + 256 * ((m (a + 1)).toNat + 256 * ((m (a + 2)).toNat +
    256 * ((m (a + 3)).toNat + 256 * 0)))) % 2 ^ 32
  omega

theorem byte_eq (m : Memory) (a : Nat) : m a = UInt8.ofNat (readLE 1 m a) := by
  rw [readLE_one, UInt8.ofNat_toNat]

/-- The pointer meets the fields of the packed structure. -/
theorem parseBpb_eq (m : Memory) (a : Nat) : parseBpb m a = (BPB.packed m a, a + 50) := by
  simp only [parseBpb, word_eq, dword_eq, byte_eq m]
  refine Prod.ext ?_ rfl
  simp only [BPB.packed, BPB.mk.injEq]
  refine ⟨?_, ?_, rfl, rfl, rfl, rfl, rfl, rfl, rfl, rfl, rfl, rfl, rfl, rfl, rfl, rfl, rfl, rfl, rfl⟩
  · funext i
    match i with
    | 0 | 1 | 2 => rfl
  · funext i
    match i with
    | 0 | 1 | 2 | 3 | 4 | 5 | 6 | 7 => rfl

/-! ## Round trips -/

theorem packed_congr {m m' : Memory} {a b : Nat} (h : ∀ k < 50, m (a + k) = m' (b + k)) :
    BPB.packed m a = BPB.packed m' b := by
  have hfield : ∀ i < 28, getField bpbWidths m a i = getField bpbWidths m' b i :=
    fun i hi => getField_congr hi h
  simp only [BPB.packed, BPB.mk.injEq]
  refine ⟨?_, ?_, ?_⟩
  · funext i
    rw [hfield _ (by omega)]
  · funext i
    rw [hfield _ (by omega)]
  · simp (disch := decide) only [hfield, and_self]

theorem packed_store (b : BPB) (m : Memory) (a : Nat) : BPB.packed (b.store m a) a = b := by
  have hfield : ∀ i < 28, getField bpbWidths (b.store m a) a i =
      b.values.getD i 0 % 256 ^ bpbWidths.getD i 0 :=
    fun i hi => getField_storeFields (Nat.le_refl 28) hi
  have h8 : ∀ i < 28, ∀ x : UInt8, b.values.getD i 0 = x.toNat → bpbWidths.getD i 0 = 1 →
      UInt8.ofNat (getField bpbWidths (b.store m a) a i) = x := by
    intro i hi x hx hw
    rw [hfield i hi, hx, hw, Nat.mod_eq_of_lt (show _ < 256 ^ 1 from x.toNat_lt), UInt8.ofNat_toNat]
  have h16 : ∀ i < 28, ∀ x : UInt16, b.values.getD i 0 = x.toNat → bpbWidths.getD i 0 = 2 →
      UInt16.ofNat (getField bpbWidths (b.store m a) a i) = x := by
    intro i hi x hx hw
    rw [hfield i hi, hx, hw, Nat.mod_eq_of_lt (show _ < 256 ^ 2 from x.toNat_lt), UInt16.ofNat_toNat]
  have h32 : ∀ i < 28, ∀ x : UInt32, b.values.getD i 0 = x.toNat → bpbWidths.getD i 0 = 4 →
      UInt32.ofNat (getField bpbWidths (b.store m a) a i) = x := by
    intro i hi x hx hw
    rw [hfield i hi, hx, hw, Nat.mod_eq_of_lt (show _ < 256 ^ 4 from x.toNat_lt), UInt32.ofNat_toNat]
  refine BPB.ext ?_ ?_ (h16 11 (by decide) _ rfl rfl) (h8 12 (by decide) _ rfl rfl)
    (h16 13 (by decide) _ rfl rfl) (h8 14 (by decide) _ rfl rfl) (h16 15 (by decide) _ rfl rfl)
    (h16 16 (by decide) _ rfl rfl) (h8 17 (by decide) _ rfl rfl) (h16 18 (by decide) _ rfl rfl)
    (h16 19 (by decide) _ rfl rfl) (h16 20 (by decide) _ rfl rfl) (h32 21 (by decide) _ rfl rfl)
    (h32 22 (by decide) _ rfl rfl) (h32 23 (by decide) _ rfl rfl) (h16 24 (by decide) _ rfl rfl)
    (h16 25 (by decide) _ rfl rfl) (h32 26 (by decide) _ rfl rfl) (h16 27 (by decide) _ rfl rfl)
  · funext i
    refine h8 i (by omega) _ ?_ ?_
    · match i with
      | 0 | 1 | 2 => rfl
    · match i with
      | 0 | 1 | 2 => rfl
  · funext i
    refine h8 (3 + i) (by omega) _ ?_ ?_
    · match i with
      | 0 | 1 | 2 | 3 | 4 | 5 | 6 | 7 => rfl
    · match i with
      | 0 | 1 | 2 | 3 | 4 | 5 | 6 | 7 => rfl

/-- `memmove(&bpb, buffer, sizeof(struct BPB))`: the structure object becomes a copy of the
first bytes of the sector. -/
def copyBpb (object buffer : Memory) : Memory := memmoveInto object 0 buffer 0 50

/-- However a parameter block comes to be in a sector, the byte parser, the packed copy and
the fields that the kernel picks all give it back. -/
structure Recovered (b : BPB) (buffer object : Memory) : Prop where
  parsed : parseBpb buffer 0 = (b, 50)
  copied : BPB.packed (copyBpb object buffer) 0 = b
  kernel : Kernel.Storage.Fat32.Bpb.ofBuffer buffer =
    ⟨b.sectorsPerCluster, b.reserverdSectors, b.numberOfFats, b.sectorsPerFat⟩

/-- Every sector is read as its one parameter block. -/
theorem recovered_packed (buffer object : Memory) : Recovered (BPB.packed buffer 0) buffer object := by
  refine ⟨?_, ?_, ?_⟩
  · rw [parseBpb_eq, Nat.zero_add]
  · apply packed_congr
    intro k hk
    exact memmoveInto_inside hk
  · have hspc : buffer 13 = UInt8.ofNat (readLE 1 buffer 13) := byte_eq buffer 13
    have hfats : buffer 16 = UInt8.ofNat (readLE 1 buffer 16) := byte_eq buffer 16
    rw [Kernel.Storage.Fat32.Bpb.ofBuffer, hspc, hfats]
    rfl

/-- What is stored is recovered, for every parameter block. -/
theorem store_recovered (b : BPB) (buffer object : Memory) :
    Recovered b (b.store buffer 0) object := by
  have hall := recovered_packed (b.store buffer 0) object
  rwa [packed_store] at hall

end PaskakasaOS.Boot.ParseBpb
