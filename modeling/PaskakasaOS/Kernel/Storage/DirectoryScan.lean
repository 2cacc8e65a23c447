import PaskakasaOS.Boot.LoaderAgreement
import PaskakasaOS.Kernel.Storage.Directory
import PaskakasaOS.Kernel.Storage.Volume

/-!
# Which entries a directory scan records

A scan records an 8.3 entry only after a long one, and marks no entry as a directory or
a label by the bits of its attribute byte. The entries it records, in order, are fixed by
the sector alone.
-/
namespace PaskakasaOS.Kernel.Storage.DirectoryScan

open Lib.ByteMemory Lib.Runs Utils.Mem AtaPio Fat32 Directory
open Boot.LoaderAgreement (Alike processEntry_alike bootDisk shortTable)
open Volume (volumeBpb)

instance (buffer : Memory) (o : Nat) : Decidable (Regular buffer o) :=
  decidable_of_iff (buffer o ≠ entryUnused ∧ buffer (o + 11) ≠ entryLfn ∧ buffer (o + 11) ≠ entryDir)
    ⟨fun h => ⟨h.1, h.2.1, h.2.2⟩, fun h => ⟨h.used, h.short, h.file⟩⟩

/-- A long entry that is not deleted. -/
def LongEntry (buffer : Memory) (o : Nat) : Prop :=
  buffer o ≠ entryUnused ∧ buffer (o + 11) = entryLfn

instance (buffer : Memory) (o : Nat) : Decidable (LongEntry buffer o) :=
  inferInstanceAs (Decidable (_ ∧ _))

/-- After these entries a long one still waits for the next 8.3 entry. -/
def Pending (buffer : Memory) (is : List Nat) : Prop :=
  ∃ p ∈ is, LongEntry buffer p ∧ ∀ q ∈ is, p < q → ¬ Regular buffer q

instance (buffer : Memory) (is : List Nat) : Decidable (Pending buffer is) :=
  inferInstanceAs (Decidable (∃ p ∈ is, _))

/-- An 8.3 entry with a long one before it and no other 8.3 entry in between. -/
def Announced (buffer : Memory) (o : Nat) : Prop :=
  Regular buffer o ∧ Pending buffer ((visited buffer).filter (· < o))

instance (buffer : Memory) (o : Nat) : Decidable (Announced buffer o) :=
  inferInstanceAs (Decidable (_ ∧ _))

def announced (buffer : Memory) : List Nat := (visited buffer).filter (Announced buffer ·)

/-- The name and the cluster number that a slot of the table holds. -/
def slotData (file : File) : List UInt8 × Nat :=
  ((List.range 11).map file.shortName, file.firstCluster.toNat)

def nameAt (buffer : Memory) (o : Nat) : List UInt8 := (List.range 11).map (fun n => buffer (o + n))

/-- What the scan takes from an entry: the low half of the cluster number. -/
def lowData (buffer : Memory) (o : Nat) : List UInt8 × Nat :=
  (nameAt buffer o, readLE 2 buffer (o + 26))

section Scan

variable {buffer : Memory} {files : Fin 5 → File} {is post : List Nat} {i : Nat} {s : Scan}

theorem firstClusterOf_toNat (buffer : Memory) (i : Nat) :
    (firstClusterOf buffer i).toNat = readLE 2 buffer (i + 26) := by
  have hlow := readLE_lt 2 buffer (i + 26)
  have hzero : ∀ x : UInt32, x <<< 16 &&& 0x00FF = 0 := by
    intro x
    apply UInt32.toNat_inj.mp
    rw [UInt32.toNat_and, UInt32.toNat_shiftLeft]
    show x.toNat <<< 16 % 2 ^ 32 &&& 2 ^ 8 - 1 = 0
    rw [Nat.and_two_pow_sub_one_eq_mod, Nat.shiftLeft_eq]
    omega
  rw [firstClusterOf, hzero, UInt32.or_zero, UInt32.toNat_ofNat']
  exact Nat.mod_eq_of_lt (by omega)

theorem slotData_recordEntry (file : File) (buffer : Memory) (i : Nat) :
    slotData (recordEntry file buffer i) = lowData buffer i := by
  have hhold := recordEntry_holds file buffer i
  have hname : (List.range 11).map (recordEntry file buffer i).shortName = nameAt buffer i :=
    List.map_congr_left fun n hn => hhold.shortName n (List.mem_range.mp hn)
  rw [slotData, hname, hhold.firstCluster, firstClusterOf_toNat, lowData]

theorem visited_sorted (buffer : Memory) : (visited buffer).Pairwise (· < ·) :=
  (List.pairwise_lt_range' 32).sublist (List.takeWhile_sublist _)

/-- The entries before one of those the loop visits. -/
theorem filter_before (h : visited buffer = is ++ i :: post) : (visited buffer).filter (· < i) = is := by
  have hsorted := visited_sorted buffer
  rw [h] at hsorted ⊢
  obtain ⟨_, hpost, hbefore⟩ := List.pairwise_append.mp hsorted
  have hkeep : is.filter (· < i) = is := by
    rw [List.filter_eq_self]
    exact fun q hq => decide_eq_true (hbefore q hq i List.mem_cons_self)
  have hdrop : (i :: post).filter (· < i) = [] := by
    rw [List.filter_eq_nil_iff]
    intro q hq
    rcases List.mem_cons.mp hq with rfl | hq
    · simp
    · have hlt := List.rel_of_pairwise_cons hpost hq
      simp only [decide_eq_true_eq]
      omega
  rw [List.filter_append, hkeep, hdrop, List.append_nil]

theorem announced_iff (h : visited buffer = is ++ i :: post) :
    Announced buffer i ↔ Regular buffer i ∧ Pending buffer is := by
  rw [Announced, filter_before h]

theorem not_long_of_regular (h : Regular buffer i) : ¬ LongEntry buffer i := fun hl => h.short hl.2

/-- A long entry starts to wait, an 8.3 entry ends the wait, and any other changes nothing. -/
theorem pending_snoc (hbefore : ∀ q ∈ is, q < i) :
    Pending buffer (is ++ [i]) ↔ LongEntry buffer i ∨ (Pending buffer is ∧ ¬ Regular buffer i) := by
  constructor
  · intro h
    obtain ⟨p, hp, hlong, hnone⟩ := h
    rcases List.mem_append.mp hp with hp | hp
    · refine Or.inr ⟨⟨p, hp, hlong, fun q hq => hnone q (List.mem_append_left _ hq)⟩, ?_⟩
      exact hnone i (List.mem_append_right _ List.mem_cons_self) (hbefore p hp)
    · rw [List.mem_singleton.mp hp] at hlong
      exact Or.inl hlong
  · intro h
    rcases h with hlong | ⟨⟨p, hp, hlong, hnone⟩, hreg⟩
    · refine ⟨i, List.mem_append_right _ List.mem_cons_self, hlong, fun q hq hlt => ?_⟩
      rcases List.mem_append.mp hq with hq | hq
      · have hle := hbefore q hq
        omega
      · rw [List.mem_singleton.mp hq] at hlt
        omega
    · refine ⟨p, List.mem_append_left _ hp, hlong, fun q hq hlt => ?_⟩
      rcases List.mem_append.mp hq with hq | hq
      · exact hnone q hq hlt
      · rwa [List.mem_singleton.mp hq]

/-! ## One entry -/

/-- An entry that is not recorded keeps the slots and the index. -/
theorem processEntry_skip (h : ¬ (Regular buffer i ∧ s.foundfile = true)) :
    ∃ s', processEntry buffer s i = some s' ∧ s'.fileIndex = s.fileIndex ∧
      (s'.foundfile = true ↔ LongEntry buffer i ∨ s.foundfile = true ∧ ¬ Regular buffer i) ∧
      ∀ k, slotData (s'.files k) = slotData (s.files k) := by
  rw [processEntry]
  by_cases hused : buffer i = entryUnused
  · refine ⟨s, if_pos hused, rfl, ?_, fun _ => rfl⟩
    have hreg : ¬ Regular buffer i := fun hr => hr.used hused
    simp [LongEntry, hused, hreg]
  rw [if_neg hused]
  by_cases hlfn : buffer (i + 11) = entryLfn
  · refine ⟨_, if_pos hlfn, rfl, by simp [LongEntry, hused, hlfn], fun k => ?_⟩
    by_cases hk : k = 0
    · subst hk
      simp only [Function.update_self, slotData, readFilenameFromLfn]
    · simp only [Function.update_of_ne hk]
  rw [if_neg hlfn]
  by_cases hdir : buffer (i + 11) = entryDir
  · refine ⟨s, if_pos hdir, rfl, ?_, fun _ => rfl⟩
    have hreg : ¬ Regular buffer i := fun hr => hr.file hdir
    simp [LongEntry, hlfn, hreg]
  have hreg : Regular buffer i := ⟨hused, hlfn, hdir⟩
  have hfound : ¬ s.foundfile = true := fun hfound => h ⟨hreg, hfound⟩
  rw [if_neg hdir, if_neg hfound]
  exact ⟨s, rfl, rfl, by simp [LongEntry, hlfn, hfound], fun _ => rfl⟩

theorem processEntry_record (hreg : Regular buffer i) (hfound : s.foundfile = true) :
    processEntry buffer s i =
      if hindex : s.fileIndex < 5 then some (s.store hindex buffer i) else none := by
  rw [processEntry, if_neg hreg.used, if_neg hreg.short, if_neg hreg.file, if_pos hfound]

theorem slotData_store (hindex : s.fileIndex < 5) (k : Fin 5) :
    slotData ((s.store hindex buffer i).files k) =
      if k.val = s.fileIndex then lowData buffer i else slotData (s.files k) := by
  by_cases hk : k.val = s.fileIndex
  · obtain rfl : k = ⟨s.fileIndex, hindex⟩ := Fin.ext hk
    rw [if_pos rfl, ← slotData_recordEntry (s.files ⟨s.fileIndex, hindex⟩) buffer i]
    show slotData (Function.update s.files _ _ _) = _
    rw [Function.update_self]
  · rw [if_neg hk, store_of_ne (fun he => hk (congrArg Fin.val he))]

/-! ## The run -/

/-- The scan after the entries `is`: the announced ones fill the slots in order. -/
structure Recorded (buffer : Memory) (files : Fin 5 → File) (is : List Nat) (s : Scan) : Prop where
  fileIndex : s.fileIndex = (is.filter (Announced buffer ·)).length
  inside : s.fileIndex ≤ 5
  foundfile : s.foundfile = true ↔ Pending buffer is
  slots : ∀ k : Fin 5, slotData (s.files k) =
    ((is.filter (Announced buffer ·)).map (lowData buffer))[k.val]?.getD (slotData (files k))

theorem filter_snoc (h : Announced buffer i) :
    (is ++ [i]).filter (Announced buffer ·) = is.filter (Announced buffer ·) ++ [i] := by
  rw [List.filter_append, List.filter_cons_of_pos (by simpa using h), List.filter_nil]

theorem filter_snoc_of_not (h : ¬ Announced buffer i) :
    (is ++ [i]).filter (Announced buffer ·) = is.filter (Announced buffer ·) := by
  rw [List.filter_append, List.filter_cons_of_neg (by simpa using h), List.filter_nil, List.append_nil]

theorem Recorded.store (hr : Recorded buffer files is s) (hbefore : ∀ q ∈ is, q < i)
    (ha : Announced buffer i) (hindex : s.fileIndex < 5) :
    Recorded buffer files (is ++ [i]) (s.store hindex buffer i) where
  fileIndex := by
    rw [filter_snoc ha, List.length_append, List.length_singleton, ← hr.fileIndex]
    rfl
  inside := hindex
  foundfile := by
    rw [pending_snoc hbefore]
    refine iff_of_false Bool.false_ne_true ?_
    intro hpending
    rcases hpending with hlong | ⟨_, hreg⟩
    · exact not_long_of_regular ha.1 hlong
    · exact hreg ha.1
  slots := by
    intro k
    have hlen : ((is.filter (Announced buffer ·)).map (lowData buffer)).length = s.fileIndex := by
      rw [List.length_map, hr.fileIndex]
    rw [filter_snoc ha, List.map_append, slotData_store, hr.slots k]
    by_cases hk : k.val < s.fileIndex
    · rw [if_neg (by omega), List.getElem?_append_left (by omega)]
    by_cases heq : k.val = s.fileIndex
    · rw [if_pos heq, List.getElem?_append_right (by omega), heq, hlen, Nat.sub_self]
      rfl
    · rw [if_neg heq, List.getElem?_eq_none (by omega), List.getElem?_eq_none]
      rw [List.length_append, hlen, List.length_map, List.length_singleton]
      omega

theorem Recorded.skip (hr : Recorded buffer files is s) (hbefore : ∀ q ∈ is, q < i)
    (ha : ¬ Announced buffer i) (hnot : ¬ (Regular buffer i ∧ s.foundfile = true)) :
    ∃ s', processEntry buffer s i = some s' ∧ Recorded buffer files (is ++ [i]) s' := by
  obtain ⟨s', hstep, hindex, hfound, hslots⟩ := processEntry_skip hnot
  refine ⟨s', hstep, ?_, hindex ▸ hr.inside, ?_, fun k => ?_⟩
  · rw [filter_snoc_of_not ha, hindex, hr.fileIndex]
  · rw [hfound, hr.foundfile, pending_snoc hbefore]
  · rw [filter_snoc_of_not ha, hslots, hr.slots]

/-- The scan of the first entries goes past the table, or has recorded those announced. -/
theorem run_recorded (files : Fin 5 → File) (h : visited buffer = is ++ post) :
    (run (processEntry buffer) ⟨files, 0, false⟩ is = none ∧
        5 < (is.filter (Announced buffer ·)).length) ∨
      ∃ s, run (processEntry buffer) ⟨files, 0, false⟩ is = some s ∧ Recorded buffer files is s := by
  induction is using List.reverseRecOn generalizing post with
  | nil =>
    refine Or.inr ⟨_, rfl, rfl, Nat.zero_le _, ?_, fun _ => rfl⟩
    exact iff_of_false Bool.false_ne_true (fun hp => absurd hp.choose_spec.1 List.not_mem_nil)
  | append_singleton is i ih =>
    rw [List.append_assoc] at h
    have hsorted := visited_sorted buffer
    rw [h] at hsorted
    have hbefore : ∀ q ∈ is, q < i := fun q hq =>
      (List.pairwise_append.mp hsorted).2.2 q hq i List.mem_cons_self
    rcases ih h with ⟨hnone, hlen⟩ | ⟨s, hrun, hr⟩
    · refine Or.inl ⟨by rw [run_snoc, hnone]; rfl, ?_⟩
      rw [List.filter_append, List.length_append]
      omega
    · rw [run_snoc_of hrun]
      have hiff := announced_iff h
      rw [← hr.foundfile] at hiff
      by_cases ha : Announced buffer i
      · obtain ⟨hreg, hfound⟩ := hiff.mp ha
        rw [processEntry_record hreg hfound]
        by_cases hindex : s.fileIndex < 5
        · rw [dif_pos hindex]
          exact Or.inr ⟨_, rfl, hr.store hbefore ha hindex⟩
        · rw [dif_neg hindex, filter_snoc ha, List.length_append, List.length_singleton, ← hr.fileIndex]
          exact Or.inl ⟨rfl, by omega⟩
      · exact Or.inr (hr.skip hbefore ha (fun hnot => ha (hiff.mpr hnot)))

end Scan

/-! ## The table -/

/-- The sector that `process_directory_area` reads. -/
def directorySector (disk : Disk) (bpb : Bpb) : Memory :=
  sectorBuffer disk (partitionStart + bpb.reserverdSectors.toUInt32 +
    bpb.sectorsPerFat * bpb.numberOfFats.toUInt32)

theorem processDirectoryArea_eq (disk : Disk) (bpb : Bpb) (files : Fin 5 → File) :
    processDirectoryArea disk bpb files = (run (processEntry (directorySector disk bpb))
      ⟨files, 0, false⟩ (visited (directorySector disk bpb))).map Scan.files := rfl

/-- The table after the scan: the announced entries in order, and the rest as it was. -/
theorem processDirectoryArea_spec (disk : Disk) (bpb : Bpb) (files : Fin 5 → File) :
    (processDirectoryArea disk bpb files = none ∧ 5 < (announced (directorySector disk bpb)).length) ∨
      ∃ files', processDirectoryArea disk bpb files = some files' ∧
        (announced (directorySector disk bpb)).length ≤ 5 ∧ ∀ k : Fin 5, slotData (files' k) =
          ((announced (directorySector disk bpb)).map (lowData (directorySector disk bpb)))[k.val]?.getD
            (slotData (files k)) := by
  rw [processDirectoryArea_eq]
  generalize directorySector disk bpb = buffer
  rcases run_recorded files (List.append_nil (visited buffer)).symm with ⟨hnone, hlen⟩ | ⟨s, hrun, hr⟩
  · exact Or.inl ⟨by rw [hnone, Option.map_none], hlen⟩
  · exact Or.inr ⟨s.files, by rw [hrun, Option.map_some], hr.fileIndex ▸ hr.inside, hr.slots⟩

/-- Both scans store inside the table: a store past its end gives `none`. -/
def ScansInside (disk : Disk) (bpb : Bpb) (files : Fin 5 → File)
    (loaded : Fin 5 → Boot.Stage2.File) : Prop :=
  (processDirectoryArea disk bpb files).isSome ∧
    (Boot.Stage2.processDirectoryArea disk bpb loaded).isSome

/-- The kernel's table with the names and clusters of the loader's. -/
def kernelFiles (loaded : Fin 5 → Boot.Stage2.File) : Fin 5 → File :=
  fun k => ⟨fun _ => 0, (loaded k).shortName, (loaded k).firstCluster, (loaded k).size⟩

/-- The loader's scan goes past its table where the kernel's does. -/
theorem loader_scan_isSome (disk : Disk) (bpb : Bpb) (loaded : Fin 5 → Boot.Stage2.File) :
    (Boot.Stage2.processDirectoryArea disk bpb loaded).isSome =
      (processDirectoryArea disk bpb (kernelFiles loaded)).isSome := by
  rw [processDirectoryArea_eq, Boot.Stage2.processDirectoryArea, Option.isSome_map, Option.isSome_map]
  have halike : Option.Rel Alike
      (run (processEntry (directorySector disk bpb)) ⟨kernelFiles loaded, 0, false⟩
        (visited (directorySector disk bpb)))
      (run (Boot.Stage2.processEntry (directorySector disk bpb)) ⟨loaded, 0, false⟩
        (visited (directorySector disk bpb))) :=
    run_rel (fun _ _ _ h => processEntry_alike h) ⟨fun _ => ⟨rfl, rfl⟩, rfl, rfl⟩
  exact (isSome_eq_of_rel halike).symm

theorem scan_isSome_iff (disk : Disk) (bpb : Bpb) (files : Fin 5 → File) :
    (processDirectoryArea disk bpb files).isSome ↔ (announced (directorySector disk bpb)).length ≤ 5 := by
  rcases processDirectoryArea_spec disk bpb files with ⟨hnone, hmore⟩ | ⟨files', hsome, hlen, _⟩
  · rw [hnone]
    exact iff_of_false Bool.false_ne_true (by omega)
  · rw [hsome]
    exact iff_of_true rfl hlen

/-- Neither scan leaves the table exactly when at most five entries are announced. -/
theorem directory_scan_inside_iff (disk : Disk) (bpb : Bpb) (files : Fin 5 → File)
    (loaded : Fin 5 → Boot.Stage2.File) :
    ScansInside disk bpb files loaded ↔ (announced (directorySector disk bpb)).length ≤ 5 := by
  rw [ScansInside, loader_scan_isSome, scan_isSome_iff, scan_isSome_iff, and_self]

/-- The volume of the loader with six files, each with a long name, in its directory. -/
def crowdedDisk : Disk := fun a =>
  if 512 * 0x802 ≤ a ∧ a < 512 * 0x802 + 384 then
    if a % 32 = 0 then UInt8.ofNat (65 + a / 64 % 8)
    else if a % 64 = 11 then entryLfn
    else 0x20
  else bootDisk shortTable a

theorem directory_scan_six_files :
    ¬ ScansInside crowdedDisk (volumeBpb crowdedDisk) zeroFiles Boot.Stage2.zeroFiles := by
  intro hinside
  have hlen := (scan_isSome_iff _ _ _).mp hinside.1
  exact absurd hlen (by decide +kernel)

/-! ## The regular files -/

/-- A file: neither deleted nor long, without the bits of a directory and of a label. -/
def FileEntry (buffer : Memory) (o : Nat) : Prop :=
  buffer o ≠ entryUnused ∧ buffer (o + 11) ≠ entryLfn ∧ buffer (o + 11) &&& 0x18 = 0

instance (buffer : Memory) (o : Nat) : Decidable (FileEntry buffer o) :=
  inferInstanceAs (Decidable (_ ∧ _))

def fileEntries (buffer : Memory) : List Nat := (visited buffer).filter (FileEntry buffer ·)

/-- What a slot should hold of a file: the whole cluster number. -/
def fileData (buffer : Memory) (o : Nat) : List UInt8 × Nat :=
  (nameAt buffer o, 65536 * readLE 2 buffer (o + 20) + readLE 2 buffer (o + 26))

/-- The scan of the fresh table leaves the files of the sector there, in order, and nothing else. -/
def RecordsFiles (disk : Disk) (bpb : Bpb) : Prop :=
  ∃ files, processDirectoryArea disk bpb zeroFiles = some files ∧ ∀ k : Fin 5,
    slotData (files k) = ((fileEntries (directorySector disk bpb)).map
      (fileData (directorySector disk bpb)))[k.val]?.getD (slotData (zeroFiles k))

/-- A slot that was never stored to names no entry that the loop visits. -/
theorem nameAt_ne_zero {buffer : Memory} {o : Nat} (ho : o ∈ visited buffer) (k : Fin 5) :
    nameAt buffer o ≠ (slotData (zeroFiles k)).1 := by
  intro hname
  have hfirst : (nameAt buffer o)[0]? = some (buffer o) := rfl
  rw [hname] at hfirst
  exact (mem_visited ho).2 (Option.some.inj hfirst).symm

/-- Two short lists of data other than `z` that fill the slots alike are the same. -/
theorem eq_of_fill {α : Type*} {z : Fin 5 → α} {l l' : List α} (hl : l.length ≤ 5) (hl' : l'.length ≤ 5)
    (hz : ∀ k, z k ∉ l) (hz' : ∀ k, z k ∉ l')
    (h : ∀ k : Fin 5, l[k.val]?.getD (z k) = l'[k.val]?.getD (z k)) : l = l' := by
  apply List.ext_getElem?
  intro k
  by_cases hk : k < 5
  · have hfill := h ⟨k, hk⟩
    cases hx : l[k]? with
    | none =>
      cases hy : l'[k]? with
      | none => rfl
      | some y =>
        rw [hx, hy] at hfill
        obtain rfl : z ⟨k, hk⟩ = y := hfill
        exact absurd (List.mem_of_getElem? hy) (hz' ⟨k, hk⟩)
    | some x =>
      cases hy : l'[k]? with
      | none =>
        rw [hx, hy] at hfill
        obtain rfl : x = z ⟨k, hk⟩ := hfill
        exact absurd (List.mem_of_getElem? hx) (hz ⟨k, hk⟩)
      | some y =>
        rw [hx, hy] at hfill
        exact congrArg some hfill
  · rw [List.getElem?_eq_none (by omega), List.getElem?_eq_none (by omega)]

/-- The scan records the announced entries with the low half of the cluster number. -/
theorem recordsFiles_iff (disk : Disk) (bpb : Bpb)
    (hfew : (fileEntries (directorySector disk bpb)).length ≤ 5) :
    RecordsFiles disk bpb ↔
      (announced (directorySector disk bpb)).map (lowData (directorySector disk bpb)) =
        (fileEntries (directorySector disk bpb)).map (fileData (directorySector disk bpb)) := by
  have hspec := processDirectoryArea_spec disk bpb zeroFiles
  rw [RecordsFiles]
  generalize processDirectoryArea disk bpb zeroFiles = r at hspec ⊢
  generalize directorySector disk bpb = buffer at hfew hspec ⊢
  constructor
  · intro h
    obtain ⟨files, rfl, hfiles⟩ := h
    rcases hspec with ⟨hnone, _⟩ | ⟨files', hsome, hlen, hslots⟩
    · cases hnone
    · obtain rfl := Option.some.inj hsome
      apply eq_of_fill (z := fun k => slotData (zeroFiles k))
      · rwa [List.length_map]
      · rwa [List.length_map]
      · intro k hk
        obtain ⟨o, ho, hdata⟩ := List.mem_map.mp hk
        exact nameAt_ne_zero (List.mem_of_mem_filter ho) k (congrArg Prod.fst hdata)
      · intro k hk
        obtain ⟨o, ho, hdata⟩ := List.mem_map.mp hk
        exact nameAt_ne_zero (List.mem_of_mem_filter ho) k (congrArg Prod.fst hdata)
      · exact fun k => (hslots k).symm.trans (hfiles k)
  · intro h
    have hcount := congrArg List.length h
    rw [List.length_map, List.length_map] at hcount
    rcases hspec with ⟨_, hmore⟩ | ⟨files, hsome, _, hslots⟩
    · omega
    · rw [h] at hslots
      exact ⟨files, hsome, hslots⟩

/-- Data with the whole cluster number agree with data with its low half when the high
half is zero. -/
theorem map_fileData_iff {buffer : Memory} {l l' : List Nat} :
    l.map (lowData buffer) = l'.map (fileData buffer) ↔
      (∀ o ∈ l', readLE 2 buffer (o + 20) = 0) ∧ l.map (lowData buffer) = l'.map (lowData buffer) := by
  have hsame : (∀ o ∈ l', readLE 2 buffer (o + 20) = 0) →
      l'.map (fileData buffer) = l'.map (lowData buffer) := by
    intro hzero
    refine List.map_congr_left fun o ho => ?_
    rw [fileData, lowData, hzero o ho, Nat.mul_zero, Nat.zero_add]
  constructor
  · intro h
    have hzero : ∀ o ∈ l', readLE 2 buffer (o + 20) = 0 := by
      intro o ho
      have hmem : fileData buffer o ∈ l.map (lowData buffer) := h ▸ List.mem_map_of_mem ho
      obtain ⟨q, _, hdata⟩ := List.mem_map.mp hmem
      have hcluster := congrArg Prod.snd hdata
      have hlow := readLE_lt 2 buffer (q + 26)
      simp only [lowData, fileData] at hcluster
      omega
    exact ⟨hzero, h.trans (hsame hzero)⟩
  · intro h
    exact h.2.trans (hsame h.1).symm

/-- The table is right exactly when every file is at a cluster below 65536 and the announced
entries are the files, up to entries of one name and cluster. -/
theorem directory_scan_correct_iff (disk : Disk) (bpb : Bpb)
    (hfew : (fileEntries (directorySector disk bpb)).length ≤ 5) :
    RecordsFiles disk bpb ↔
      (∀ o ∈ fileEntries (directorySector disk bpb), readLE 2 (directorySector disk bpb) (o + 20) = 0) ∧
        (announced (directorySector disk bpb)).map (lowData (directorySector disk bpb)) =
          (fileEntries (directorySector disk bpb)).map (lowData (directorySector disk bpb)) := by
  rw [recordsFiles_iff disk bpb hfew, map_fileData_iff]

/-- The volume of the loader, whose one file has a long name. -/
theorem directory_scan_correct_iff_boot :
    RecordsFiles (bootDisk shortTable) (volumeBpb (bootDisk shortTable)) ↔
      (∀ o ∈ fileEntries (directorySector (bootDisk shortTable) (volumeBpb (bootDisk shortTable))),
        readLE 2 (directorySector (bootDisk shortTable) (volumeBpb (bootDisk shortTable))) (o + 20) = 0) ∧
      (announced (directorySector (bootDisk shortTable) (volumeBpb (bootDisk shortTable)))).map
        (lowData (directorySector (bootDisk shortTable) (volumeBpb (bootDisk shortTable)))) =
      (fileEntries (directorySector (bootDisk shortTable) (volumeBpb (bootDisk shortTable)))).map
        (lowData (directorySector (bootDisk shortTable) (volumeBpb (bootDisk shortTable)))) :=
  directory_scan_correct_iff _ _ (by decide +kernel)

/-- The same volume with `BOOT.BIN` at cluster 65539. -/
def highDisk : Disk := fun a =>
  if a = 512 * 0x802 + 52 then 1
  else bootDisk shortTable a

/-- The slot gets cluster 3. -/
theorem directory_scan_drops_high_half : ¬ RecordsFiles highDisk (volumeBpb highDisk) := by
  intro h
  obtain ⟨files, hsome, hfiles⟩ := h
  rcases processDirectoryArea_spec highDisk (volumeBpb highDisk) zeroFiles with
    ⟨hnone, _⟩ | ⟨files', hsome', _, hslots⟩
  · rw [hsome] at hnone
    cases hnone
  · rw [hsome] at hsome'
    obtain rfl := Option.some.inj hsome'
    have hslot := (hslots 0).symm.trans (hfiles 0)
    exact absurd hslot (by decide +kernel)

end PaskakasaOS.Kernel.Storage.DirectoryScan
