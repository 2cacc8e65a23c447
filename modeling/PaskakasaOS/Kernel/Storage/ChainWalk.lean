import PaskakasaOS.Boot.LoaderAgreement
import PaskakasaOS.Lib.Orbits

/-!
# The walk of `read_file` along a chain

The clusters that `read_file` looks up and reads are the orbit of the start cluster
along the table. No cluster on it is checked against the 128 entries of the table or
against the first data cluster, and no step is counted.
-/
namespace PaskakasaOS.Kernel.Storage.ChainWalk

open Lib.ByteMemory Lib.Orbits AtaPio Fat32 ReadTrace
open Boot.LoaderAgreement (bootDisk shortTable)
open Boot.Stage2 (bootName)

/-- The indices of the lookups that `clusterReads` makes. -/
def clusterLookups (fat : Memory) : Nat → Nat → UInt32 → List UInt32
  | 0, _, _ => []
  | fuel + 1, memIndex, next =>
    next :: match readNextcluster fat next with
      | none => []
      | some next =>
        if next = 0 then []
        else if memIndex * 0x200 < 2 ^ 31 then clusterLookups fat fuel (memIndex + 1) next
        else []

/-- The sector of the table that `read_file` reads. -/
def fatBuffer (disk : Disk) (bpb : Bpb) : Memory :=
  sectorBuffer disk (partitionStart + bpb.reserverdSectors.toUInt32)

def fileLookups (disk : Disk) (s : Fat) (path : Memory) (fuel : Nat) : List UInt32 :=
  let cluster := findCluster s.files path
  if cluster = 0 then [] else clusterLookups (fatBuffer disk s.bpb) fuel 1 cluster

def firstDataSector (bpb : Bpb) : Nat :=
  0x800 + bpb.reserverdSectors.toNat + bpb.numberOfFats.toNat * bpb.sectorsPerFat.toNat

/-- However long the call runs, its lookups stay in the table and its sectors in the data area. -/
structure Robust (disk : Disk) (s : Fat) (path : Memory) : Prop where
  lookups : ∀ fuel, ∀ c ∈ fileLookups disk s path fuel, c.toNat < 128
  sectors : ∀ fuel, ∀ r ∈ (fileReads disk s path fuel).sectors, firstDataSector s.bpb ≤ r.lba.toNat

/-- The next cluster, as long as the chain goes on. -/
def link (fat : Memory) (c : UInt32) : Option UInt32 := (readNextcluster fat c).filter (· ≠ 0)

section Rounds

variable {fat : Memory} {bpb : Bpb} {fuel memIndex n : Nat} {next c d : UInt32}

theorem link_eq_some : link fat c = some d ↔ readNextcluster fat c = some d ∧ d ≠ 0 := by
  rw [link, Option.filter_eq_some_iff, decide_eq_true_eq]

theorem clusterLookups_next (h : link fat next = some d) (hindex : memIndex * 0x200 < 2 ^ 31) :
    clusterLookups fat (fuel + 1) memIndex next = next :: clusterLookups fat fuel (memIndex + 1) d := by
  obtain ⟨hnext, hd⟩ := link_eq_some.mp h
  simp only [clusterLookups, hnext, if_neg hd, if_pos hindex]

theorem clusterReads_next (h : link fat next = some d) (hindex : memIndex * 0x200 < 2 ^ 31) :
    clusterReads bpb fat (fuel + 1) memIndex next =
      ⟨⟨clusterdataLBA bpb d, memIndex * 0x200⟩ :: (clusterReads bpb fat fuel (memIndex + 1) d).sectors,
        (clusterReads bpb fat fuel (memIndex + 1) d).ending⟩ := by
  obtain ⟨hnext, hd⟩ := link_eq_some.mp h
  simp only [clusterReads, hnext, if_neg hd, if_pos hindex]

/-- A round that does not go on makes one lookup and reads no sector. -/
theorem round_cases (fat : Memory) (bpb : Bpb) (memIndex : Nat) (next : UInt32) :
    (∃ d, link fat next = some d ∧ memIndex * 0x200 < 2 ^ 31) ∨
      ∀ fuel, clusterLookups fat (fuel + 1) memIndex next = [next] ∧
        (clusterReads bpb fat (fuel + 1) memIndex next).sectors = [] ∧
        ((clusterReads bpb fat (fuel + 1) memIndex next).ending = .ended ↔
          readNextcluster fat next = some 0) := by
  cases hnext : readNextcluster fat next with
  | none =>
    refine Or.inr fun fuel => ?_
    simp [clusterLookups, clusterReads, hnext]
  | some d =>
    by_cases hd : d = 0
    · refine Or.inr fun fuel => ?_
      simp [clusterLookups, clusterReads, hnext, hd]
    by_cases hindex : memIndex * 0x200 < 2 ^ 31
    · exact Or.inl ⟨d, link_eq_some.mpr ⟨hnext, hd⟩, hindex⟩
    · refine Or.inr fun fuel => ?_
      simp only [clusterLookups, clusterReads, hnext, if_neg hd, if_neg hindex]
      simp [hd]

/-- Every lookup is at a cluster of the chain. -/
theorem mem_clusterLookups (h : c ∈ clusterLookups fat fuel memIndex next) :
    ∃ n, iter (link fat) n next = some c := by
  induction fuel generalizing memIndex next with
  | zero => cases h
  | succ fuel ih =>
    rcases round_cases fat ⟨0, 0, 0, 0⟩ memIndex next with ⟨d, hd, hindex⟩ | hstop
    · rw [clusterLookups_next hd hindex, List.mem_cons] at h
      rcases h with rfl | h
      · exact ⟨0, rfl⟩
      · obtain ⟨n, hn⟩ := ih h
        exact ⟨n + 1, by rwa [iter_succ_of hd]⟩
    · rw [(hstop fuel).1, List.mem_singleton] at h
      exact ⟨0, congrArg some h.symm⟩

/-- Every sector read is that of a cluster of the chain. -/
theorem mem_clusterReads {r : SectorRead} (h : r ∈ (clusterReads bpb fat fuel memIndex next).sectors) :
    ∃ n c, iter (link fat) (n + 1) next = some c ∧ r.lba = clusterdataLBA bpb c := by
  induction fuel generalizing memIndex next with
  | zero => cases h
  | succ fuel ih =>
    rcases round_cases fat bpb memIndex next with ⟨d, hd, hindex⟩ | hstop
    · rw [clusterReads_next hd hindex, List.mem_cons] at h
      rcases h with rfl | h
      · exact ⟨0, d, by rw [iter_succ_of hd, iter_zero], rfl⟩
      · obtain ⟨n, c, hn, hlba⟩ := ih h
        exact ⟨n + 1, c, by rwa [iter_succ_of hd], hlba⟩
    · rw [(hstop fuel).2.1] at h
      cases h

theorem index_succ (h : (memIndex + (n + 1)) * 0x200 < 2 ^ 31) :
    memIndex * 0x200 < 2 ^ 31 ∧ (memIndex + 1 + n) * 0x200 < 2 ^ 31 := by
  rw [show memIndex + (n + 1) = memIndex + 1 + n by omega] at h
  exact ⟨Nat.lt_of_le_of_lt (Nat.mul_le_mul_right _ (by omega)) h, h⟩

/-- A cluster of the chain is looked up, and read if it is not the first. -/
theorem clusterLookups_reaches (h : iter (link fat) n next = some c)
    (hindex : (memIndex + n) * 0x200 < 2 ^ 31) : c ∈ clusterLookups fat (n + 1) memIndex next := by
  induction n generalizing memIndex next with
  | zero =>
    obtain rfl := Option.some.inj h
    exact List.mem_cons_self
  | succ n ih =>
    obtain ⟨d, hd, hrest⟩ := Option.bind_eq_some_iff.mp h
    obtain ⟨hnow, hlater⟩ := index_succ hindex
    rw [clusterLookups_next hd hnow]
    exact List.mem_cons_of_mem _ (ih hrest hlater)

theorem clusterReads_reaches (h : iter (link fat) (n + 1) next = some c) (hfuel : n < fuel)
    (hindex : (memIndex + n) * 0x200 < 2 ^ 31) :
    ∃ r ∈ (clusterReads bpb fat fuel memIndex next).sectors, r.lba = clusterdataLBA bpb c := by
  induction n generalizing fuel memIndex next with
  | zero =>
    obtain ⟨fuel, rfl⟩ := Nat.exists_eq_add_one.mpr hfuel
    obtain ⟨d, hd, hrest⟩ := Option.bind_eq_some_iff.mp h
    obtain rfl := Option.some.inj hrest
    rw [Nat.add_zero] at hindex
    rw [clusterReads_next hd hindex]
    exact ⟨_, List.mem_cons_self, rfl⟩
  | succ n ih =>
    obtain ⟨fuel, rfl⟩ := Nat.exists_eq_add_one.mpr (Nat.zero_lt_of_lt hfuel)
    obtain ⟨d, hd, hrest⟩ := Option.bind_eq_some_iff.mp h
    obtain ⟨hnow, hlater⟩ := index_succ hindex
    rw [clusterReads_next hd hnow]
    obtain ⟨r, hr, hlba⟩ := ih hrest (Nat.lt_of_succ_lt_succ hfuel) hlater
    exact ⟨r, List.mem_cons_of_mem _ hr, hlba⟩

end Rounds

/-! ## The sector of a cluster -/

/-- The cluster has an entry in the sector of the table and a place in the data area. -/
structure Placed (bpb : Bpb) (c : UInt32) : Prop where
  entry : c.toNat < 128
  data : 2 ≤ c.toNat ∨ bpb.sectorsPerCluster = 0
  sector : firstDataSector bpb + (c.toNat - 2) * bpb.sectorsPerCluster.toNat < 2 ^ 32

/-- The sector number, before it wraps. -/
theorem clusterdataLBA_wrap (bpb : Bpb) (c : UInt32) :
    (clusterdataLBA bpb c).toNat =
      (firstDataSector bpb + (2 ^ 32 - 2 + c.toNat) % 2 ^ 32 * bpb.sectorsPerCluster.toNat) % 2 ^ 32 := by
  have hstart : partitionStart.toNat = 0x800 := by decide
  have htwo : (2 : UInt32).toNat = 2 := by decide
  rw [clusterdataLBA, firstDataSector, UInt32.toNat_add, UInt32.toNat_add, UInt32.toNat_add,
    UInt32.toNat_mul, UInt32.toNat_mul, UInt32.toNat_sub, UInt16.toNat_toUInt32,
    UInt8.toNat_toUInt32, UInt8.toNat_toUInt32, hstart, htwo]
  omega

theorem placed_iff {bpb : Bpb} {c : UInt32} (hc : c ≠ 0) (hentry : c.toNat < 128) :
    firstDataSector bpb ≤ (clusterdataLBA bpb c).toNat ↔ Placed bpb c := by
  have hpos : c.toNat ≠ 0 := fun h => hc (UInt32.toNat_inj.mp h)
  have hspc := bpb.sectorsPerCluster.toNat_lt
  have hfirst : 0x800 ≤ firstDataSector bpb := by
    rw [firstDataSector]
    omega
  have hzero : bpb.sectorsPerCluster = 0 ↔ bpb.sectorsPerCluster.toNat = 0 := UInt8.toNat_inj.symm
  have hplaced : Placed bpb c ↔ (2 ≤ c.toNat ∨ bpb.sectorsPerCluster.toNat = 0) ∧
      firstDataSector bpb + (c.toNat - 2) * bpb.sectorsPerCluster.toNat < 2 ^ 32 := by
    rw [← hzero]
    exact ⟨fun h => ⟨h.data, h.sector⟩, fun h => ⟨hentry, h.1, h.2⟩⟩
  rw [clusterdataLBA_wrap, hplaced]
  generalize firstDataSector bpb = first at hfirst ⊢
  generalize bpb.sectorsPerCluster.toNat = spc at hspc ⊢
  by_cases htwo : 2 ≤ c.toNat
  · -- clusters from 2 on lie behind the first data sector unless the whole number wraps
    rw [show (2 ^ 32 - 2 + c.toNat) % 2 ^ 32 = c.toNat - 2 by omega]
    have hsmall : (c.toNat - 2) * spc ≤ 128 * 256 := Nat.mul_le_mul (by omega) (by omega)
    omega
  · -- cluster 1 is one cluster before it
    have hone : c.toNat = 1 := by omega
    have hback : first + (2 ^ 32 - 2 + 1) % 2 ^ 32 * spc = first - spc + 2 ^ 32 * spc := by omega
    rw [hone, hback, Nat.add_mul_mod_self_left]
    omega

/-! ## Robustness -/

/-- The clusters with an entry in the table. -/
def entries : Finset UInt32 := (Finset.range 128).image UInt32.ofNat

theorem mem_entries {c : UInt32} : c ∈ entries ↔ c.toNat < 128 := by
  rw [entries, Finset.mem_image]
  constructor
  · intro h
    obtain ⟨n, hn, rfl⟩ := h
    rw [Finset.mem_range] at hn
    rw [UInt32.toNat_ofNat', Nat.mod_eq_of_lt (by omega)]
    exact hn
  · exact fun h => ⟨c.toNat, Finset.mem_range.mpr h, UInt32.ofNat_toNat⟩

theorem card_entries_le : entries.card ≤ 128 :=
  Finset.card_image_le.trans (Finset.card_range 128).le

section Robust

variable {disk : Disk} {s : Fat} {path : Memory} {n : Nat} {c : UInt32}

theorem mem_fileLookups {fuel : Nat} (h : c ∈ fileLookups disk s path fuel) :
    findCluster s.files path ≠ 0 ∧
      ∃ n, iter (link (fatBuffer disk s.bpb)) n (findCluster s.files path) = some c := by
  rw [fileLookups] at h
  by_cases hstart : findCluster s.files path = 0
  · simp only [if_pos hstart] at h
    cases h
  · simp only [if_neg hstart] at h
    exact ⟨hstart, mem_clusterLookups h⟩

theorem mem_fileReads {fuel : Nat} {r : SectorRead} (h : r ∈ (fileReads disk s path fuel).sectors) :
    findCluster s.files path ≠ 0 ∧ ∃ n c,
      iter (link (fatBuffer disk s.bpb)) n (findCluster s.files path) = some c ∧
        r.lba = clusterdataLBA s.bpb c := by
  rw [fileReads] at h
  by_cases hstart : findCluster s.files path = 0
  · simp only [if_pos hstart] at h
    cases h
  · simp only [if_neg hstart, List.mem_cons] at h
    refine ⟨hstart, ?_⟩
    rcases h with rfl | h
    · exact ⟨0, _, rfl, rfl⟩
    · obtain ⟨n, c, hn, hlba⟩ := mem_clusterReads h
      exact ⟨n + 1, c, hn, hlba⟩

/-- A cluster that the chain reaches soon is looked up and read. -/
theorem fileReads_reaches (hstart : findCluster s.files path ≠ 0) (hn : n ≤ 128)
    (h : iter (link (fatBuffer disk s.bpb)) n (findCluster s.files path) = some c) :
    c ∈ fileLookups disk s path (n + 1) ∧
      ∃ r ∈ (fileReads disk s path (n + 1)).sectors, r.lba = clusterdataLBA s.bpb c := by
  have hindex : ∀ n, n ≤ 128 → (1 + n) * 0x200 < 2 ^ 31 := fun n hn => by omega
  constructor
  · simp only [fileLookups, if_neg hstart]
    exact clusterLookups_reaches h (hindex n hn)
  · simp only [fileReads, if_neg hstart]
    cases n with
    | zero =>
      obtain rfl := Option.some.inj h
      exact ⟨_, List.mem_cons_self, rfl⟩
    | succ n =>
      obtain ⟨r, hr, hlba⟩ := clusterReads_reaches h (show n < n + 1 + 1 by omega) (hindex n (by omega))
      exact ⟨r, List.mem_cons_of_mem _ hr, hlba⟩

end Robust

/-- The call is robust exactly when the file is not found or every cluster of its chain
has an entry in the one sector of the table and a place behind the first data sector. -/
theorem read_file_robust_iff (disk : Disk) (s : Fat) (path : Memory) :
    Robust disk s path ↔ findCluster s.files path = 0 ∨ ∀ n c,
      iter (link (fatBuffer disk s.bpb)) n (findCluster s.files path) = some c → Placed s.bpb c := by
  have hnonzero : ∀ n c, findCluster s.files path ≠ 0 →
      iter (link (fatBuffer disk s.bpb)) n (findCluster s.files path) = some c → c ≠ 0 := by
    intro n c hstart h
    cases n with
    | zero => rwa [← Option.some.inj h]
    | succ n =>
      obtain ⟨b, hb⟩ := iter_of_le (Nat.le_succ n) (Option.isSome_iff_exists.mpr ⟨c, h⟩)
      rw [iter_snoc hb] at h
      exact (link_eq_some.mp h).2
  constructor
  · intro h
    by_cases hstart : findCluster s.files path = 0
    · exact Or.inl hstart
    refine Or.inr fun n => ?_
    induction n using Nat.strong_induction_on with
    | h n ih =>
      intro c hc
      -- the clusters before have entries, so the chain is at `c` within 128 steps
      obtain ⟨m, hm, hmc⟩ := exists_iter_le_card entries hc fun i hi x hx =>
        mem_entries.mpr (ih i hi x hx).entry
      obtain ⟨hlookup, r, hr, hlba⟩ := fileReads_reaches hstart (hm.trans card_entries_le) hmc
      have hentry := h.lookups _ c hlookup
      have hsector := h.sectors _ r hr
      rw [hlba] at hsector
      exact (placed_iff (hnonzero n c hstart hc) hentry).mp hsector
  · intro h
    constructor
    · intro fuel c hc
      obtain ⟨hstart, n, hn⟩ := mem_fileLookups hc
      exact (h.resolve_left hstart n c hn).entry
    · intro fuel r hr
      obtain ⟨hstart, n, c, hn, hlba⟩ := mem_fileReads hr
      have hplaced := h.resolve_left hstart n c hn
      rw [hlba]
      exact (placed_iff (hnonzero n c hstart hn) hplaced.entry).mpr hplaced

/-- The chain of `BOOT.BIN` goes from cluster 3 to cluster 128. -/
def longTable : Memory := fun b => if b = 12 then 128 else 0

theorem read_file_not_robust_long :
    ∃ s, initFat (bootDisk longTable) zeroFiles = some s ∧ ¬ Robust (bootDisk longTable) s bootName := by
  have hlookups : (initFat (bootDisk longTable) zeroFiles).map
      (fun s => fileLookups (bootDisk longTable) s bootName 2) = some [3, 128] := by
    decide +kernel
  obtain ⟨s, hinit, hs⟩ := Option.map_eq_some_iff.mp hlookups
  refine ⟨s, hinit, fun h => ?_⟩
  have hlast := h.lookups 2 128 (by rw [hs]; exact List.mem_cons_of_mem _ List.mem_cons_self)
  exact absurd hlast (by decide)

/-! ## Termination -/

def tableEntry (fat : Memory) (c : UInt32) : UInt32 := UInt32.ofNat (readLE 4 fat (4 * c.toNat))

/-- The next cluster of a chain within the 128 entries. -/
def tableLink (fat : Memory) (c : UInt32) : Option UInt32 :=
  if c.toNat < 128 ∧ tableEntry fat c ≠ 0 ∧ (tableEntry fat c).toNat < 128 then some (tableEntry fat c)
  else none

/-- What ends a chain on a FAT32 volume: 28 bits of the entry count. -/
def EndMark (e : UInt32) : Prop := 0x0ffffff8 ≤ e.toNat % 2 ^ 28

/-- The entries reachable from `c` are clusters of the table or end marks. -/
def WellLinked (fat : Memory) (c : UInt32) : Prop :=
  ∀ n d, iter (tableLink fat) n c = some d →
    (tableEntry fat d).toNat < 128 ∨ EndMark (tableEntry fat d)

/-- When the file is found, the loop ends, and the call has read at most 128 sectors. -/
def EndsSoon (disk : Disk) (s : Fat) (path : Memory) : Prop :=
  findCluster s.files path ≠ 0 →
    ∃ fuel, (fileReads disk s path fuel).ending = .ended ∧
      (fileReads disk s path fuel).sectors.length ≤ 128

section Ending

variable {fat : Memory} {bpb : Bpb} {fuel memIndex m n : Nat} {next b c d : UInt32}

theorem readNextcluster_eq_entry (h : c.toNat < 128) :
    readNextcluster fat c = some (if tableEntry fat c = 0xfffffff then 0 else tableEntry fat c) := by
  rw [readNextcluster, if_pos h, tableEntry]

theorem tableLink_eq_some : tableLink fat c = some d ↔
    (c.toNat < 128 ∧ d ≠ 0 ∧ d.toNat < 128) ∧ tableEntry fat c = d := by
  rw [tableLink]
  split_ifs with h
  · constructor
    · intro heq
      obtain rfl := Option.some.inj heq
      exact ⟨h, rfl⟩
    · intro heq
      exact congrArg some heq.2
  · refine iff_of_false (fun heq => by cases heq) fun heq => h ?_
    rw [heq.2]
    exact heq.1

theorem link_of_tableLink (h : tableLink fat c = some d) : link fat c = some d := by
  obtain ⟨⟨hc, hd, hlt⟩, rfl⟩ := tableLink_eq_some.mp h
  have hmark : tableEntry fat c ≠ 0xfffffff := by
    intro heq
    rw [heq] at hlt
    exact absurd hlt (by decide)
  rw [link_eq_some, readNextcluster_eq_entry hc, if_neg hmark]
  exact ⟨rfl, hd⟩

theorem tableLink_reach_lt (hnext : next.toNat < 128) (h : iter (tableLink fat) n next = some c) :
    c.toNat < 128 := by
  cases n with
  | zero => rwa [← Option.some.inj h]
  | succ n =>
    obtain ⟨b, hb⟩ := iter_of_le (Nat.le_succ n) (Option.isSome_iff_exists.mpr ⟨c, h⟩)
    rw [iter_snoc hb] at h
    exact (tableLink_eq_some.mp h).1.2.2

/-- A loop that gets to an entry that ends it reads one sector for each cluster after the first. -/
theorem clusterReads_ended (h : iter (link fat) m next = some b) (hb : readNextcluster fat b = some 0)
    (hindex : (memIndex + m) * 0x200 < 2 ^ 31) :
    (clusterReads bpb fat (m + 1) memIndex next).ending = .ended ∧
      (clusterReads bpb fat (m + 1) memIndex next).sectors.length = m := by
  induction m generalizing memIndex next with
  | zero =>
    obtain rfl := Option.some.inj h
    simp [clusterReads, hb]
  | succ m ih =>
    obtain ⟨d, hd, hrest⟩ := Option.bind_eq_some_iff.mp h
    obtain ⟨hnow, hlater⟩ := index_succ hindex
    obtain ⟨hending, hlength⟩ := ih hrest hlater
    rw [clusterReads_next hd hnow, hending, List.length_cons, hlength]
    exact ⟨rfl, rfl⟩

theorem exists_last_of_ended (h : (clusterReads bpb fat fuel memIndex next).ending = .ended) :
    ∃ m b, iter (link fat) m next = some b ∧ readNextcluster fat b = some 0 := by
  induction fuel generalizing memIndex next with
  | zero => cases h
  | succ fuel ih =>
    rcases round_cases fat bpb memIndex next with ⟨d, hd, hindex⟩ | hstop
    · rw [clusterReads_next hd hindex] at h
      obtain ⟨m, b, hm, hb⟩ := ih h
      exact ⟨m + 1, b, by rwa [iter_succ_of hd], hb⟩
    · exact ⟨0, next, rfl, ((hstop fuel).2.2).mp h⟩

theorem link_eq_none_of_zero (h : readNextcluster fat c = some 0) : link fat c = none := by
  rw [link, h]
  rfl

theorem iter_link_of_tableLink (h : iter (tableLink fat) n c = some d) :
    iter (link fat) n c = some d :=
  iter_mono (fun _ _ => link_of_tableLink) h

/-- The chain in the table has no cycle, and its last entry is the one mark that
`read_nextcluster` knows, or a zero. -/
def EndsInTable (fat : Memory) (first : UInt32) : Prop :=
  Acyclic (tableLink fat) first ∧ ∀ n c, iter (tableLink fat) n first = some c →
    128 ≤ (tableEntry fat c).toNat → tableEntry fat c = 0xfffffff

theorem endsInTable_of_end (hnext : next.toNat < 128) (hb : iter (link fat) m next = some b)
    (hzero : readNextcluster fat b = some 0) : EndsInTable fat next := by
  have hend := link_eq_none_of_zero hzero
  constructor
  · intro n x k hx hreturn
    -- a cycle goes on past every last point
    obtain ⟨y, hy⟩ := Option.isSome_iff_exists.mp
      (iter_isSome_of_return (iter_link_of_tableLink hreturn) (m + 1))
    have hlong : iter (link fat) (n + (m + 1)) next = some y := by
      rw [iter_add, iter_link_of_tableLink hx, Option.bind_some, hy]
    obtain ⟨z, hz⟩ := iter_of_le (show m + 1 ≤ n + (m + 1) by omega)
      (Option.isSome_iff_exists.mpr ⟨y, hlong⟩)
    rw [iter_snoc hb, hend] at hz
    cases hz
  · intro n c hc hlarge
    by_contra hmark
    have hout : readNextcluster fat (tableEntry fat c) = none := by
      rw [readNextcluster, if_neg (by omega)]
    have hstep : link fat c = some (tableEntry fat c) := by
      rw [link_eq_some, readNextcluster_eq_entry (tableLink_reach_lt hnext hc), if_neg hmark]
      refine ⟨rfl, fun hentry => ?_⟩
      rw [hentry] at hlarge
      exact absurd hlarge (by decide)
    have hreach : iter (link fat) (n + 1) next = some (tableEntry fat c) := by
      rw [iter_snoc (iter_link_of_tableLink hc), hstep]
    have hlast : link fat (tableEntry fat c) = none := by
      rw [link, hout]
      rfl
    rw [last_unique hb hend hreach hlast, hout] at hzero
    cases hzero

/-- Such a chain has at most 128 clusters, one for each entry. -/
theorem end_of_endsInTable (hnext : next.toNat < 128) (h : EndsInTable fat next) :
    ∃ m < 128, ∃ b, iter (link fat) m next = some b ∧ readNextcluster fat b = some 0 := by
  obtain ⟨hac, hmarks⟩ := h
  obtain ⟨m, hm, b, hb, hend⟩ := exists_last entries
    (fun n x hx => mem_entries.mpr (tableLink_reach_lt hnext hx)) hac
  refine ⟨m, hm.trans_le card_entries_le, b, iter_link_of_tableLink hb, ?_⟩
  have hlt := tableLink_reach_lt hnext hb
  rw [readNextcluster_eq_entry hlt]
  by_cases hlarge : 128 ≤ (tableEntry fat b).toNat
  · rw [if_pos (hmarks m b hb hlarge)]
  · -- an entry below 128 that is no link is zero
    have hzero : tableEntry fat b = 0 := by
      by_contra hne
      rw [tableLink, if_pos ⟨hlt, hne, by omega⟩] at hend
      cases hend
    rw [hzero]
    rfl

end Ending

/-- For a start cluster in the table, the call ends within 128 sector reads exactly when
the file is not found or its chain ends in the table. -/
theorem read_file_ends_iff (disk : Disk) (s : Fat) (path : Memory)
    (hfirst : (findCluster s.files path).toNat < 128) :
    EndsSoon disk s path ↔ findCluster s.files path = 0 ∨
      EndsInTable (fatBuffer disk s.bpb) (findCluster s.files path) := by
  rw [EndsSoon, or_iff_not_imp_left]
  refine forall_congr' fun hfound => ?_
  simp only [fileReads, if_neg hfound]
  constructor
  · intro h
    obtain ⟨fuel, hending, _⟩ := h
    obtain ⟨m, b, hb, hzero⟩ := exists_last_of_ended hending
    exact endsInTable_of_end hfirst hb hzero
  · intro h
    obtain ⟨m, hm, b, hb, hzero⟩ := end_of_endsInTable hfirst h
    have hended : (clusterReads s.bpb (fatBuffer disk s.bpb) (m + 1) 1
        (findCluster s.files path)).ending = .ended ∧ (clusterReads s.bpb (fatBuffer disk s.bpb)
          (m + 1) 1 (findCluster s.files path)).sectors.length = m :=
      clusterReads_ended hb hzero (by omega)
    obtain ⟨hending, hlength⟩ := hended
    refine ⟨m + 1, hending, ?_⟩
    rw [List.length_cons]
    exact Nat.succ_le_of_lt (lt_of_eq_of_lt hlength hm)

/-- `BOOT.BIN` on the volume of the loader. -/
theorem read_file_ends_iff_boot :
    ∃ s, initFat (bootDisk shortTable) zeroFiles = some s ∧
      (EndsSoon (bootDisk shortTable) s bootName ↔ findCluster s.files bootName = 0 ∨
        EndsInTable (fatBuffer (bootDisk shortTable) s.bpb) (findCluster s.files bootName)) := by
  have hfound : (initFat (bootDisk shortTable) zeroFiles).map (fun s => findCluster s.files bootName) =
      some 3 := by
    decide +kernel
  obtain ⟨s, hinit, hs⟩ := Option.map_eq_some_iff.mp hfound
  exact ⟨s, hinit, read_file_ends_iff (bootDisk shortTable) s bootName (by rw [hs]; decide)⟩

/-- Cluster 3 is linked to itself. -/
def loopTable : Memory := fun b => if b = 12 then 3 else 0

theorem read_file_loops :
    ∃ s, initFat (bootDisk loopTable) zeroFiles = some s ∧ findCluster s.files bootName = 3 ∧
      WellLinked (fatBuffer (bootDisk loopTable) s.bpb) 3 ∧ ¬ EndsSoon (bootDisk loopTable) s bootName := by
  have hvolume : (initFat (bootDisk loopTable) zeroFiles).map (fun s =>
      (findCluster s.files bootName, tableEntry (fatBuffer (bootDisk loopTable) s.bpb) 3)) =
      some (3, 3) := by
    decide +kernel
  obtain ⟨s, hinit, hs⟩ := Option.map_eq_some_iff.mp hvolume
  obtain ⟨hfirst, hentry⟩ := Prod.mk.inj hs
  have hlink : tableLink (fatBuffer (bootDisk loopTable) s.bpb) 3 = some 3 :=
    tableLink_eq_some.mpr ⟨by decide, hentry⟩
  have hstay : ∀ n, iter (tableLink (fatBuffer (bootDisk loopTable) s.bpb)) n 3 = some 3 := by
    intro n
    induction n with
    | zero => rfl
    | succ n ih => rw [iter_snoc ih, hlink]
  refine ⟨s, hinit, hfirst, ?_, fun hends => ?_⟩
  · intro n d hd
    obtain rfl := Option.some.inj ((hstay n).symm.trans hd)
    rw [hentry]
    exact Or.inl (by decide)
  · obtain ⟨fuel, hending, _⟩ := hends (by rw [hfirst]; decide)
    simp only [fileReads, hfirst] at hending
    rw [if_neg (by decide)] at hending
    obtain ⟨m, b, hb, hzero⟩ := exists_last_of_ended hending
    exact (endsInTable_of_end (by decide) hb hzero).1 0 3 0 (hstay 0) (hstay 1)

end PaskakasaOS.Kernel.Storage.ChainWalk
