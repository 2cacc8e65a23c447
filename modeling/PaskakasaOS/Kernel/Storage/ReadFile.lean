import Mathlib.Data.List.Perm.Subperm
import PaskakasaOS.Kernel.Storage.Volume

/-!
# `read_file` against the volume

The function has no `return` on the path that has read the file, so no call
reports success. What it does place at the destination is the file whenever the
volume is one of those the code is written for.
-/
namespace PaskakasaOS.Kernel.Storage.ReadFile

open Lib.ByteMemory Lib.Runs Utils.Mem AtaPio Fat32 Directory Volume

/-! ## The table that `init_fat` leaves -/

/-- The sector that `process_directory_area` goes through. -/
def directoryBuffer (disk : Disk) : Memory :=
  sectorBuffer disk (partitionStart + (volumeBpb disk).reserverdSectors.toUInt32 +
    (volumeBpb disk).sectorsPerFat * (volumeBpb disk).numberOfFats.toUInt32)

variable {disk : Disk} {s : Fat} {files : Fin 5 → File} {path : Memory} {e o : Nat} {chain : List Nat}

theorem initFat_cases (h : initFat disk files = some s) :
    s.bpb = volumeBpb disk ∧ ∃ scan, s.files = scan.files ∧
      run (processEntry (directoryBuffer disk)) ⟨files, 0, false⟩ (visited (directoryBuffer disk)) =
        some scan := by
  simp only [initFat, processDirectoryArea, Option.map_eq_some_iff] at h
  obtain ⟨_, ⟨scan, hscan, rfl⟩, rfl⟩ := h
  refine ⟨by rw [volumeBpb], scan, rfl, ?_⟩
  rwa [directoryBuffer, volumeBpb]

/-- The high half of the cluster number is masked away. -/
theorem firstClusterOf_eq (buffer : Memory) (o : Nat) :
    firstClusterOf buffer o = UInt32.ofNat (readLE 2 buffer (o + 26)) := by
  have hmask : (UInt32.ofNat (readLE 2 buffer (o + 20)) <<< 16) &&& 0x00FF = 0 := by
    apply UInt32.toNat_inj.mp
    rw [UInt32.toNat_and, UInt32.toNat_shiftLeft, Nat.shiftLeft_eq]
    show _ &&& (2 ^ 8 - 1) = 0
    rw [Nat.and_two_pow_sub_one_eq_mod]
    show _ * 2 ^ 16 % 2 ^ 32 % 2 ^ 8 = 0
    omega
  rw [firstClusterOf, hmask, UInt32.or_zero]

/-- The last slot whose name matches gives the cluster. -/
theorem foldl_match {files : Fin 5 → File} {path : Memory} {c : UInt32} {ks : List (Fin 5)}
    (hex : ∃ k ∈ ks, strcmp (files k).shortName path 11 = 0)
    (hall : ∀ k, strcmp (files k).shortName path 11 = 0 → (files k).firstCluster = c) :
    ks.foldl (fun cluster i =>
      if strcmp (files i).shortName path 11 = 0 then (files i).firstCluster else cluster) 0 = c := by
  obtain ⟨k, hmem, hk⟩ := hex
  induction ks using List.reverseRecOn with
  | nil => cases hmem
  | append_singleton ks i ih =>
    rw [List.foldl_append, List.foldl_cons, List.foldl_nil]
    by_cases hi : strcmp (files i).shortName path 11 = 0
    · rw [if_pos hi]
      exact hall i hi
    · rw [if_neg hi]
      rcases List.mem_append.mp hmem with hfront | hlast
      · exact ih hfront
      · rw [List.mem_singleton.mp hlast] at hk
        exact absurd hk hi

theorem findCluster_eq {c : UInt32} (hex : ∃ k, strcmp (files k).shortName path 11 = 0)
    (hall : ∀ k, strcmp (files k).shortName path 11 = 0 → (files k).firstCluster = c) :
    findCluster files path = c := by
  obtain ⟨k, hk⟩ := hex
  exact foldl_match ⟨k, List.mem_finRange k, hk⟩ hall

/-! ## A file that stands in the table -/

theorem directoryBuffer_eq (hlba : clusterSector disk 2 < 2 ^ 28) (hroot : rootCluster disk = 2)
    (ho : o < 512) : directoryBuffer disk o = rootBytes disk o := by
  rw [directoryBuffer, sectorBuffer_eq ho, directoryLBA_toNat hlba, Nat.mod_eq_of_lt hlba, rootBytes,
    hroot]

theorem regular_congr {buffer buffer' : Memory} (h : ∀ b < 512, buffer b = buffer' b)
    (ho : o + 11 < 512) (hreg : Regular buffer o) : Regular buffer' o where
  used := h o (by omega) ▸ hreg.used
  short := h (o + 11) ho ▸ hreg.short
  file := h (o + 11) ho ▸ hreg.file

/-- What the code takes for granted: a volume below the 28-bit sector limit, and a chain
in the first sector of the table with the one end mark it knows. -/
structure Expected (disk : Disk) (e : Nat) (chain : List Nat) : Prop where
  lba28 : 0x800 + totalSectors disk ≤ 2 ^ 28
  firstFatSector : ∀ c ∈ chain, c < 128
  reservedBits : ∀ c ∈ chain, fatEntry disk c < 2 ^ 28
  endMark : ∀ c ∈ chain.getLast?, fatEntry disk c = 0x0FFFFFFF
  uniqueName : ∀ d < 16, Regular (rootBytes disk) (32 * d) →
    (∀ n < 11, rootBytes disk (32 * d + n) = rootBytes disk (32 * (e + 1) + n)) → d = e + 1

/-- A cluster whose sectors and table entry the driver can address. -/
structure Addressable (disk : Disk) (c : Nat) : Prop where
  two_le : 2 ≤ c
  lt : c < 128
  sector : clusterSector disk c < 2 ^ 28

theorem Expected.addressable (hexp : Expected disk e chain) (hfile : FileAt disk e chain) :
    ∀ c ∈ chain, Addressable disk c := by
  intro c hc
  obtain ⟨htwo, _, hend⟩ := hfile.inside c hc
  have hspc := hfile.clusterSize
  have hlba := hexp.lba28
  exact ⟨htwo, hexp.firstFatSector c hc, by omega⟩

theorem Expected.directorySector (hexp : Expected disk e chain) (hfile : FileAt disk e chain) :
    clusterSector disk 2 < 2 ^ 28 := by
  have hsector := (hexp.addressable hfile _ (List.mem_of_head? hfile.first)).sector
  simp only [clusterSector, Nat.sub_self, Nat.zero_mul] at hsector ⊢
  omega

/-- With a small cluster number, nothing is lost by dropping its high half. -/
theorem firstClusterOf_fileAt (hfile : FileAt disk e chain) (hexp : Expected disk e chain) :
    firstClusterOf (directoryBuffer disk) (32 * (e + 1)) =
      UInt32.ofNat (firstCluster disk (e + 1)) := by
  have hentry := hfile.firstSector
  have hlow : readLE 2 (directoryBuffer disk) (32 * (e + 1) + 26) =
      readLE 2 (rootBytes disk) (32 * (e + 1) + 26) :=
    readLE_congr fun i hi =>
      directoryBuffer_eq (hexp.directorySector hfile) hfile.root (by omega)
  have hsmall := hexp.firstFatSector _ (List.mem_of_head? hfile.first)
  rw [firstClusterOf_eq, hlow]
  congr 1
  rw [firstCluster] at hsmall ⊢
  omega

/-- The lookup finds the first cluster of the file. -/
theorem findCluster_fileAt (hfile : FileAt disk e chain) (hexp : Expected disk e chain)
    (hinit : initFat disk zeroFiles = some s)
    (hpath : ∀ n < 11, path n = rootBytes disk (32 * (e + 1) + n)) :
    findCluster s.files path = UInt32.ofNat (firstCluster disk (e + 1)) := by
  obtain ⟨_, scan, hfiles, hrun⟩ := initFat_cases hinit
  have hentry := hfile.firstSector
  have hbuf : ∀ b < 512, directoryBuffer disk b = rootBytes disk b :=
    fun b hb => directoryBuffer_eq (hexp.directorySector hfile) hfile.root hb
  have hbuf' : ∀ b < 512, rootBytes disk b = directoryBuffer disk b := fun b hb => (hbuf b hb).symm
  have hcluster := firstClusterOf_fileAt hfile hexp
  rw [hfiles]
  apply findCluster_eq
  · have hused : ∀ d ≤ e + 1, directoryBuffer disk (32 * d) ≠ 0 := by
      intro d hd
      rw [hbuf _ (by omega)]
      exact hfile.nonzero d hd
    obtain ⟨pre, post, hvisited⟩ := visited_split hentry hused
    have hsplit := hrun
    rw [hvisited] at hsplit
    obtain ⟨k, hk⟩ := run_records (by rw [hbuf _ (by omega)]; exact hfile.longUsed)
      (by rw [hbuf _ (by omega)]; exact hfile.long)
      (regular_congr hbuf' (by omega) hfile.regular) hsplit
    refine ⟨k, (strcmp_eq_zero_iff _ _ _).mpr fun n hn => ?_⟩
    rw [hk.shortName n hn, hbuf _ (by omega), hpath n hn]
  · intro k hk
    have hname := (strcmp_eq_zero_iff _ _ _).mp hk
    rcases run_origin (fun _ => Or.inl rfl) hrun k with hzero | ⟨o, ho, hreg, hhold⟩
    · -- an empty slot has the empty name
      have hempty := hname 0 (by decide)
      rw [hzero, hpath 0 (by decide)] at hempty
      exact absurd hempty.symm (hfile.nonzero (e + 1) (Nat.le_refl _))
    · obtain ⟨⟨d, hd, rfl⟩, _⟩ := mem_visited ho
      have hde : d = e + 1 := by
        refine hexp.uniqueName d hd (regular_congr hbuf (by omega) hreg) fun n hn => ?_
        rw [← hbuf _ (by omega), ← hhold.shortName n hn, hname n hn, hpath n hn]
      rw [hhold.firstCluster, hde, hcluster]

/-! ## Following the chain -/

theorem toNat_ofNat_lt {c : Nat} (hc : c < 2 ^ 32) : (UInt32.ofNat c).toNat = c := by
  rw [UInt32.toNat_ofNat', Nat.mod_eq_of_lt hc]

/-- The sector of the table that `read_file` keeps. -/
def firstFatSector (disk : Disk) : Memory :=
  sectorBuffer disk (partitionStart + (volumeBpb disk).reserverdSectors.toUInt32)

theorem readNextcluster_eq (disk : Disk) {c : Nat} (hc : c < 128) :
    readNextcluster (firstFatSector disk) (UInt32.ofNat c) =
      some (if fatEntry disk c = 0x0FFFFFFF then 0 else UInt32.ofNat (fatEntry disk c)) := by
  have hreserved := reservedSectors_lt disk
  have hsector : fatSector disk < 2 ^ 28 := by
    rw [fatSector]
    omega
  have hentry : readLE 4 (firstFatSector disk) (4 * c) = fatEntry disk c := by
    rw [firstFatSector, readLE_sectorBuffer (by omega), fatLBA_toNat, Nat.mod_eq_of_lt hsector,
      fatEntry]
  have hlt : fatEntry disk c < 2 ^ 32 := readLE_lt 4 disk _
  have hend : UInt32.ofNat (fatEntry disk c) = 0xfffffff ↔ fatEntry disk c = 0x0FFFFFFF := by
    rw [← UInt32.toNat_inj, toNat_ofNat_lt hlt]
    rfl
  simp only [readNextcluster, toNat_ofNat_lt (Nat.lt_trans hc (by decide)), if_pos hc, hentry, hend]

theorem ofNat_ne_zero {c : Nat} (hc : Addressable disk c) : UInt32.ofNat c ≠ 0 := by
  intro hzero
  have hnat := congrArg UInt32.toNat hzero
  rw [toNat_ofNat_lt (Nat.lt_trans hc.lt (by decide))] at hnat
  have htwo := hc.two_le
  change c = 0 at hnat
  omega

/-- The sector read for an addressable cluster is its first. -/
theorem readCluster_inside {m : Memory} {data c i : Nat} (hc : Addressable disk c) (hi : i < 512) :
    readSector disk m data (clusterdataLBA (volumeBpb disk) (UInt32.ofNat c)) (data + i) =
      disk (512 * clusterSector disk c + i) := by
  rw [readSector_inside hi, clusterdataLBA_toNat hc.two_le (Nat.lt_trans hc.lt (by decide)) hc.sector,
    Nat.mod_eq_of_lt hc.sector]

/-- The round that finds the end of the chain. -/
theorem readClusters_end {bpb : Bpb} {fat m : Memory} {address fuel k : Nat} {c : UInt32}
    (hnext : readNextcluster fat c = some 0) :
    readClusters disk bpb fat address (fuel + 1) m k c = .fallsOff m := by
  rw [readClusters, hnext]
  rfl

/-- The round that finds a further cluster. -/
theorem readClusters_next {bpb : Bpb} {fat m : Memory} {address fuel k : Nat} {c next : UInt32}
    (hnext : readNextcluster fat c = some next) (hnonzero : next ≠ 0) (hk : k < 2 ^ 22) :
    readClusters disk bpb fat address (fuel + 1) m k c =
      readClusters disk bpb fat address fuel
        (readSector disk m (address + k * 0x200) (clusterdataLBA bpb next)) (k + 1) next := by
  have hstride : k * 0x200 < 2 ^ 31 := by omega
  rw [readClusters, hnext]
  show (if next = 0 then _ else if k * 0x200 < 2 ^ 31 then _ else _) = _
  rw [if_neg hnonzero, if_pos hstride]

/-- From cluster `c` on, the loop stores the first sector of each further cluster, one
after the other, and leaves what lies before. -/
theorem readClusters_chain {rest : List Nat} {c k address : Nat} {m : Memory}
    (hlinked : (c :: rest).IsChain (fun c d => fatEntry disk c = d))
    (hended : ∀ d ∈ (c :: rest).getLast?, fatEntry disk d = 0x0FFFFFFF)
    (haddr : ∀ d ∈ c :: rest, Addressable disk d) (hk : k + rest.length ≤ 2 ^ 22) :
    ∃ m', (∀ fuel, rest.length < fuel →
        readClusters disk (volumeBpb disk) (firstFatSector disk) address fuel m k
          (UInt32.ofNat c) = .fallsOff m') ∧
      (∀ b < address + k * 0x200, m' b = m b) ∧
      ∀ q d, rest[q]? = some d → ∀ i < 512,
        m' (address + (k + q) * 0x200 + i) = disk (512 * clusterSector disk d + i) := by
  have hnext := readNextcluster_eq disk (haddr c List.mem_cons_self).lt
  induction rest generalizing c k m with
  | nil =>
    rw [if_pos (hended c rfl)] at hnext
    refine ⟨m, ?_, fun _ _ => rfl, fun q d hq => ?_⟩
    · intro fuel hfuel
      obtain ⟨fuel, rfl⟩ := Nat.exists_eq_add_one.mpr hfuel
      exact readClusters_end hnext
    · cases hq
  | cons d rest ih =>
    obtain ⟨hcd, hlinked⟩ := List.isChain_cons_cons.mp hlinked
    have hd := haddr d (List.mem_cons_of_mem c List.mem_cons_self)
    have hdlt := hd.lt
    rw [List.length_cons] at hk
    rw [hcd, if_neg (by omega)] at hnext
    have hend : ∀ x ∈ (d :: rest).getLast?, fatEntry disk x = 0x0FFFFFFF := by
      rwa [List.getLast?_cons_cons] at hended
    obtain ⟨m', hrun, hbefore, hafter⟩ := ih hlinked hend
      (fun x hx => haddr x (List.mem_cons_of_mem c hx))
      (by omega : k + 1 + rest.length ≤ 2 ^ 22) (readNextcluster_eq disk hdlt)
      (m := readSector disk m (address + k * 0x200) (clusterdataLBA (volumeBpb disk) (UInt32.ofNat d)))
    refine ⟨m', ?_, ?_, ?_⟩
    · intro fuel hfuel
      obtain ⟨fuel, rfl⟩ := Nat.exists_eq_add_one.mpr (Nat.zero_lt_of_lt hfuel)
      rw [readClusters_next hnext (ofNat_ne_zero hd) (by omega)]
      exact hrun fuel (Nat.lt_of_succ_lt_succ hfuel)
    · intro b hb
      have hnear : k * 0x200 ≤ (k + 1) * 0x200 := Nat.mul_le_mul_right _ (Nat.le_succ k)
      have hlt : b < address + (k + 1) * 0x200 := Nat.lt_of_lt_of_le hb (Nat.add_le_add_left hnear _)
      exact (hbefore b hlt).trans (readSector_outside (Or.inl hb))
    · intro q x hq i hi
      cases q with
      | zero =>
        cases hq
        have hlt : address + k * 0x200 + i < address + (k + 1) * 0x200 := by
          rw [Nat.succ_mul]
          omega
        exact (hbefore _ hlt).trans (readCluster_inside hd hi)
      | succ q =>
        have hrest := hafter q x hq i hi
        rwa [show k + 1 + q = k + (q + 1) by omega] at hrest

/-! ## File read correctness -/

/-- The bytes of the file stand at `address`. -/
def HasFile (disk : Disk) (e : Nat) (chain : List Nat) (address : Nat) (m : Memory) : Prop :=
  ∀ j < fileSize disk (e + 1), (fileBytes disk chain)[j]? = some (m (address + j))

/-- The call returns 0 with the file in place. -/
def Succeeds (disk : Disk) (s : Fat) (path : Memory) (address : Nat) (m : Memory) (e : Nat)
    (chain : List Nat) : Prop :=
  ∃ fuel m', readFile disk s path address m fuel = .returns 0 m' ∧ HasFile disk e chain address m'

theorem readClusters_ne_returns {bpb : Bpb} {fat m m' : Memory} {address fuel k : Nat}
    {next : UInt32} {v : UInt8} :
    readClusters disk bpb fat address fuel m k next ≠ .returns v m' := by
  induction fuel generalizing m k next with
  | zero => exact Outcome.noConfusion
  | succ fuel ih =>
    rw [readClusters]
    split
    · exact Outcome.noConfusion
    · split_ifs
      · exact Outcome.noConfusion
      · exact ih
      · exact Outcome.noConfusion

/-- The only value `read_file` returns is the 1 for a file it has not found. -/
theorem readFile_returns {m m' : Memory} {address fuel : Nat} {v : UInt8}
    (h : readFile disk s path address m fuel = .returns v m') : v = 1 := by
  rw [readFile] at h
  split_ifs at h
  · cases h
    rfl
  · exact absurd h readClusters_ne_returns

theorem not_succeeds (disk : Disk) (s : Fat) (path : Memory) (address : Nat) (m : Memory) (e : Nat)
    (chain : List Nat) : ¬ Succeeds disk s path address m e chain := by
  rintro ⟨fuel, m', hret, _⟩
  exact absurd (readFile_returns hret) (by decide)

theorem Expected.linked (hexp : Expected disk e chain) (hfile : FileAt disk e chain) :
    chain.IsChain (fun c d => fatEntry disk c = d) := by
  refine hfile.linked.imp_of_mem_imp fun c d hc _ hnext => ?_
  rwa [nextCluster, Nat.mod_eq_of_lt (hexp.reservedBits c hc)] at hnext

/-- A chain of distinct clusters below 128 is short. -/
theorem Expected.length_le (hexp : Expected disk e chain) (hfile : FileAt disk e chain) :
    chain.length ≤ 128 := by
  have hsub : chain ⊆ List.range 128 := fun c hc => List.mem_range.mpr (hexp.firstFatSector c hc)
  have hle := (hfile.acyclic.subperm hsub).length_le
  rwa [List.length_range] at hle

/-- The first sectors of the clusters stand one after the other from `address` on. -/
def HasFirstSectors (disk : Disk) (chain : List Nat) (address : Nat) (m : Memory) : Prop :=
  ∀ q d, chain[q]? = some d → ∀ i < 512,
    m (address + q * 0x200 + i) = disk (512 * clusterSector disk d + i)

/-- On an expected volume the loop ends and leaves the first sector of every cluster. -/
theorem readFile_sectors (hfile : FileAt disk e chain) (hexp : Expected disk e chain)
    (hinit : initFat disk zeroFiles = some s)
    (hpath : ∀ n < 11, path n = rootBytes disk (32 * (e + 1) + n)) (address : Nat) (m : Memory) :
    ∃ m', (∀ fuel, chain.length ≤ fuel → readFile disk s path address m fuel = .fallsOff m') ∧
      HasFirstSectors disk chain address m' := by
  have hcluster := findCluster_fileAt hfile hexp hinit hpath
  have hlinked := hexp.linked hfile
  have hended := hexp.endMark
  have haddr := hexp.addressable hfile
  have hlength := hexp.length_le hfile
  have hbpb := (initFat_cases hinit).1
  obtain ⟨rest, rfl⟩ := List.head?_eq_some_iff.mp hfile.first
  have hfirst := haddr _ List.mem_cons_self
  rw [List.length_cons] at hlength
  let stored := readSector disk m address
    (clusterdataLBA (volumeBpb disk) (UInt32.ofNat (firstCluster disk (e + 1))))
  have hread : ∀ fuel, readFile disk s path address m fuel =
      readClusters disk (volumeBpb disk) (firstFatSector disk) address fuel stored 1
        (UInt32.ofNat (firstCluster disk (e + 1))) := by
    intro fuel
    simp only [readFile, hcluster, if_neg (ofNat_ne_zero hfirst), hbpb]
    rfl
  obtain ⟨m', hrun, hbefore, hafter⟩ := readClusters_chain hlinked hended haddr
    (by omega : 1 + rest.length ≤ 2 ^ 22) (m := stored) (k := 1)
  refine ⟨m', ?_, ?_⟩
  · intro fuel hfuel
    rw [hread]
    exact hrun fuel hfuel
  · intro q d hq i hi
    cases q with
    | zero =>
      cases hq
      exact (hbefore _ (by omega)).trans (readCluster_inside hfirst hi)
    | succ q =>
      have hrest := hafter q d hq i hi
      rwa [Nat.add_comm 1 q] at hrest

/-- With clusters of one sector, or a file of at most one, the first sectors are the file. -/
theorem hasFile_of_sectors {address : Nat} {m : Memory} (hfile : FileAt disk e chain)
    (hone : sectorsPerCluster disk = 1 ∨ fileSize disk (e + 1) ≤ 512)
    (hsectors : HasFirstSectors disk chain address m) : HasFile disk e chain address m := by
  intro j hj
  have hspc := hfile.clusterSize
  have hsize := hfile.size
  rw [fileBytes_getElem? hspc]
  rcases hone with hone | hsmall
  · rw [hone] at hsize ⊢
    have hq : j / 512 < chain.length := by omega
    have hbyte := hsectors (j / 512) chain[j / 512] (List.getElem?_eq_getElem hq) (j % 512)
      (Nat.mod_lt j (by decide))
    rw [Nat.add_assoc, Nat.mul_comm (j / 512), Nat.div_add_mod] at hbyte
    rw [List.getElem?_eq_getElem hq, Option.map_some, hbyte]
  · have hj' : j < 512 * sectorsPerCluster disk := by omega
    have hbyte := hsectors 0 _ (List.head?_eq_getElem? ▸ hfile.first) j (by omega)
    rw [Nat.zero_mul, Nat.add_zero] at hbyte
    rw [Nat.div_eq_of_lt hj', Nat.mod_eq_of_lt hj', ← List.head?_eq_getElem?, hfile.first,
      Option.map_some, hbyte]

/-- No call reports success, whatever the volume. On a volume of the expected kind the
call ends nevertheless, at the closing brace, with one sector of each cluster in place:
the file, when a cluster is one sector or the file fits in one. -/
theorem readFile_never_succeeds (hfile : FileAt disk e chain)
    (hinit : initFat disk zeroFiles = some s)
    (hpath : ∀ n < 11, path n = rootBytes disk (32 * (e + 1) + n)) (address : Nat) (m : Memory) :
    ¬ Succeeds disk s path address m e chain ∧
    (Expected disk e chain → ∃ m',
      (∀ fuel, chain.length ≤ fuel → readFile disk s path address m fuel = .fallsOff m') ∧
      HasFirstSectors disk chain address m' ∧
      (sectorsPerCluster disk = 1 ∨ fileSize disk (e + 1) ≤ 512 →
        HasFile disk e chain address m')) := by
  refine ⟨not_succeeds disk s path address m e chain, fun hexp => ?_⟩
  obtain ⟨m', hends, hsectors⟩ := readFile_sectors hfile hexp hinit hpath address m
  exact ⟨m', hends, hsectors, fun hone => hasFile_of_sectors hfile hone hsectors⟩

/-- A volume of eight sectors: boot sector, one table, root directory and clusters 3 to 7;
`FONT.PSF` has 600 bytes in clusters 3 and 5. -/
def sampleBytes : List (Nat × List UInt8) :=
  [(512 * 0x800 + 11, [0, 2, 1, 1, 0, 1]), (512 * 0x800 + 32, [8, 0, 0, 0, 1]),
    (512 * 0x800 + 44, [2]), (512 * 0x801 + 12, [5, 0, 0, 0]),
    (512 * 0x801 + 20, [0xff, 0xff, 0xff, 0x0f]), (512 * 0x802, [0x41]), (512 * 0x802 + 11, [0x0f]),
    (512 * 0x802 + 32, [70, 79, 78, 84, 32, 32, 32, 32, 80, 83, 70, 0x20]),
    (512 * 0x802 + 58, [3, 0, 0x58, 2]), (512 * 0x803, [0x72, 0xb5, 0x4a, 0x86])]

def sampleDisk : Disk := fun a =>
  (sampleBytes.findSome? (fun r => if r.1 ≤ a then r.2[a - r.1]? else none)).getD 0

def samplePath : Memory := fun n => [70, 79, 78, 84, 32, 32, 32, 32, 80, 83, 70].getD n 0

theorem samplePath_eq : ∀ n < 11, samplePath n = rootBytes sampleDisk (32 * (0 + 1) + n) := by
  decide +kernel

theorem sampleDisk_fileAt : FileAt sampleDisk 0 [3, 5] where
  sectorSize := by decide +kernel
  root := by decide +kernel
  clusterSize := by decide +kernel
  firstSector := by decide
  nonzero := by decide +kernel
  longUsed := by decide +kernel
  long := by decide +kernel
  regular := ⟨by decide +kernel, by decide +kernel, by decide +kernel⟩
  first := by decide +kernel
  linked := by decide +kernel
  ended := by decide +kernel
  acyclic := by decide
  inside := by decide +kernel
  size := by decide +kernel

theorem sampleDisk_expected : Expected sampleDisk 0 [3, 5] where
  lba28 := by decide +kernel
  firstFatSector := by decide
  reservedBits := by decide +kernel
  endMark := by decide +kernel
  uniqueName := by
    have hfirst : ∀ d < 16, rootBytes sampleDisk (32 * d + 0) = rootBytes sampleDisk (32 * 1 + 0) →
        d = 1 := by decide +kernel
    exact fun d hd _ hname => hfirst d hd (hname 0 (by decide))

theorem sampleDisk_initFat : (initFat sampleDisk zeroFiles).isSome := by decide +kernel

theorem readFile_never_succeeds_font :
    ∃ s, initFat sampleDisk zeroFiles = some s ∧
      ¬ Succeeds sampleDisk s samplePath 0x200000 (fun _ => 0) 0 [3, 5] ∧
      ∃ m', (∀ fuel, 2 ≤ fuel →
          readFile sampleDisk s samplePath 0x200000 (fun _ => 0) fuel = .fallsOff m') ∧
        HasFile sampleDisk 0 [3, 5] 0x200000 m' := by
  obtain ⟨s, hinit⟩ := Option.isSome_iff_exists.mp sampleDisk_initFat
  have hread := readFile_never_succeeds sampleDisk_fileAt hinit samplePath_eq 0x200000 (fun _ => 0)
  obtain ⟨m', hends, _, hfile⟩ := hread.2 sampleDisk_expected
  exact ⟨s, hinit, hread.1, m', hends, hfile (Or.inl (by decide +kernel))⟩

/-- The font file is on the volume and in the table, and reading it returns no value. -/
theorem readFile_font_no_success :
    ∃ s, initFat sampleDisk zeroFiles = some s ∧ FileAt sampleDisk 0 [3, 5] ∧
      ¬ Succeeds sampleDisk s samplePath 0x200000 (fun _ => 0) 0 [3, 5] := by
  obtain ⟨s, hinit⟩ := Option.isSome_iff_exists.mp sampleDisk_initFat
  exact ⟨s, hinit, sampleDisk_fileAt, not_succeeds _ _ _ _ _ _ _⟩

end PaskakasaOS.Kernel.Storage.ReadFile
