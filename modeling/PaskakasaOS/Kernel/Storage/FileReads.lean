import PaskakasaOS.Kernel.Storage.ReadFile
import PaskakasaOS.Kernel.Storage.ReadTrace

/-!
# The reads for one file

On a volume of the expected kind `read_file` reads the first sector of every cluster,
one sector behind the other, and stores nothing besides them.
-/
namespace PaskakasaOS.Kernel.Storage.FileReads

open Lib.ByteMemory AtaPio Fat32 Volume ReadFile ReadTrace

variable {disk : Disk} {bpb : Bpb} {s : Fat} {path m : Memory} {e fuel k a b : Nat} {chain : List Nat}

/-- The first sectors of the clusters, from place `k` on. -/
def readsFrom (bpb : Bpb) : Nat → List Nat → List SectorRead
  | _, [] => []
  | k, c :: chain => ⟨clusterdataLBA bpb (UInt32.ofNat c), k * 0x200⟩ :: readsFrom bpb (k + 1) chain

theorem readsFrom_offset {r : SectorRead} (hr : r ∈ readsFrom bpb k chain) :
    k * 512 ≤ r.offset ∧ r.offset + 512 ≤ (k + chain.length) * 512 := by
  induction chain generalizing k with
  | nil => cases hr
  | cons c chain ih =>
    rw [List.length_cons]
    rcases List.mem_cons.mp hr with rfl | hr
    · show k * 512 ≤ k * 512 ∧ k * 512 + 512 ≤ _
      omega
    · obtain ⟨hlow, hhigh⟩ := ih hr
      omega

/-- The reads of the clusters behind the first. -/
theorem clusterReads_chain (bpb : Bpb) {rest : List Nat} {c : Nat}
    (hlinked : (c :: rest).IsChain (fun c d => fatEntry disk c = d))
    (hended : ∀ d ∈ (c :: rest).getLast?, fatEntry disk d = 0x0FFFFFFF)
    (haddr : ∀ d ∈ c :: rest, Addressable disk d) (hk : k + rest.length ≤ 2 ^ 22)
    (hfuel : rest.length < fuel) :
    clusterReads bpb (firstFatSector disk) fuel k (UInt32.ofNat c) =
      ⟨readsFrom bpb k rest, .ended⟩ := by
  have hnext := ReadFile.readNextcluster_eq disk (haddr c List.mem_cons_self).lt
  obtain ⟨fuel, rfl⟩ := Nat.exists_eq_add_one.mpr (Nat.zero_lt_of_lt hfuel)
  induction rest generalizing c k fuel with
  | nil =>
    rw [if_pos (hended c rfl)] at hnext
    simp only [clusterReads, hnext, if_pos, readsFrom]
  | cons d rest ih =>
    obtain ⟨hcd, hlinked⟩ := List.isChain_cons_cons.mp hlinked
    have hd := haddr d (List.mem_cons_of_mem c List.mem_cons_self)
    have hend : ∀ x ∈ (d :: rest).getLast?, fatEntry disk x = 0x0FFFFFFF := by
      rwa [List.getLast?_cons_cons] at hended
    have hdlt := hd.lt
    rw [List.length_cons] at hk hfuel
    rw [hcd, if_neg (by omega)] at hnext
    obtain ⟨fuel, rfl⟩ := Nat.exists_eq_add_one.mpr (show 0 < fuel by omega)
    have hrest := ih hlinked hend (fun x hx => haddr x (List.mem_cons_of_mem c hx))
      (by omega : k + 1 + rest.length ≤ 2 ^ 22) (ReadFile.readNextcluster_eq disk hdlt) fuel
      (Nat.lt_of_succ_lt_succ hfuel)
    have hindex : k * 0x200 < 2 ^ 31 := by omega
    rw [clusterReads, hnext]
    simp only [if_neg (ofNat_ne_zero hd), if_pos hindex, hrest, readsFrom]

/-- A file is read sector by sector, the first of every cluster, and the call then ends. -/
theorem fileReads_chain (hfile : FileAt disk e chain) (hexp : Expected disk e chain)
    (hinit : initFat disk zeroFiles = some s)
    (hpath : ∀ n < 11, path n = rootBytes disk (32 * (e + 1) + n)) (hfuel : chain.length ≤ fuel) :
    fileReads disk s path fuel = ⟨readsFrom s.bpb 0 chain, .ended⟩ := by
  have hcluster := findCluster_fileAt hfile hexp hinit hpath
  have hlinked := hexp.linked hfile
  have hended := hexp.endMark
  have haddr := hexp.addressable hfile
  have hlength := hexp.length_le hfile
  have htable : sectorBuffer disk (partitionStart + s.bpb.reserverdSectors.toUInt32) =
      firstFatSector disk := by
    rw [(initFat_cases hinit).1, firstFatSector]
  obtain ⟨rest, rfl⟩ := List.head?_eq_some_iff.mp hfile.first
  rw [List.length_cons] at hlength hfuel
  have hrest := clusterReads_chain s.bpb hlinked hended haddr
    (by omega : 1 + rest.length ≤ 2 ^ 22) hfuel
  have hfirst := ofNat_ne_zero (haddr _ List.mem_cons_self)
  simp only [fileReads, hcluster, if_neg hfirst, htable, hrest, readsFrom, Nat.zero_mul, Nat.zero_add]

theorem perform_outside {sectors : List SectorRead}
    (h : ∀ r ∈ sectors, b < a + r.offset ∨ a + r.offset + 512 ≤ b) :
    perform disk a m sectors b = m b :=
  foldl_outside fun r hr _ => readSector_outside (h r hr)

/-- Nothing is stored before the destination, or behind the last sector. -/
theorem perform_readsFrom_outside (hb : b < a ∨ a + 512 * chain.length ≤ b) :
    perform disk a m (readsFrom bpb 0 chain) b = m b := by
  refine perform_outside fun r hr => ?_
  obtain ⟨_, hhigh⟩ := readsFrom_offset hr
  omega

/-- Performing the reads puts the sectors in place. -/
theorem perform_firstSectors (hfile : FileAt disk e chain) (hexp : Expected disk e chain)
    (hinit : initFat disk zeroFiles = some s)
    (hpath : ∀ n < 11, path n = rootBytes disk (32 * (e + 1) + n)) (address : Nat) (m : Memory) :
    HasFirstSectors disk chain address (perform disk address m (readsFrom s.bpb 0 chain)) := by
  obtain ⟨m', hread, hfirst⟩ := readFile_sectors hfile hexp hinit hpath address m
  have hends := hread chain.length (Nat.le_refl _)
  rw [readFile_eq_reads, fileReads_chain hfile hexp hinit hpath (Nat.le_refl _)] at hends
  exact Outcome.fallsOff.inj hends ▸ hfirst

/-- The call ends, with the sectors in place and the rest of memory as it was. -/
theorem readFile_placed (hfile : FileAt disk e chain) (hexp : Expected disk e chain)
    (hinit : initFat disk zeroFiles = some s)
    (hpath : ∀ n < 11, path n = rootBytes disk (32 * (e + 1) + n)) (address : Nat) (m : Memory) :
    ∃ m', (∀ fuel, chain.length ≤ fuel → readFile disk s path address m fuel = .fallsOff m') ∧
      HasFirstSectors disk chain address m' ∧
      ∀ b, b < address ∨ address + 512 * chain.length ≤ b → m' b = m b := by
  refine ⟨_, fun fuel hfuel => ?_, perform_firstSectors hfile hexp hinit hpath address m,
    fun b hb => perform_readsFrom_outside hb⟩
  rw [readFile_eq_reads, fileReads_chain hfile hexp hinit hpath hfuel]
  rfl

end PaskakasaOS.Kernel.Storage.FileReads
