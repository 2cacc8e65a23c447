import Mathlib.Data.List.TakeWhile
import PaskakasaOS.Kernel.Storage.Fat32

/-!
# What `init_fat` records

Every slot of the file table is untouched or holds a regular entry of the
directory sector, and the entry that follows a long entry is held by a slot.
-/
namespace PaskakasaOS.Kernel.Storage.Directory

open Lib.ByteMemory Lib.Runs Utils.Mem AtaPio Fat32

/-- An 8.3 entry that is neither deleted nor marked as a directory. -/
structure Regular (buffer : Memory) (o : Nat) : Prop where
  used : buffer o ≠ entryUnused
  short : buffer (o + 11) ≠ entryLfn
  file : buffer (o + 11) ≠ entryDir

/-- The slot carries the name and the cluster number of the entry at `o`. -/
structure Holds (file : File) (buffer : Memory) (o : Nat) : Prop where
  shortName : ∀ n < 11, file.shortName n = buffer (o + n)
  firstCluster : file.firstCluster = firstClusterOf buffer o

variable {buffer : Memory} {s s' : Scan} {i o : Nat} {k : Fin 5}

theorem recordEntry_holds (file : File) (buffer : Memory) (i : Nat) :
    Holds (recordEntry file buffer i) buffer i where
  shortName := fun _ hn => memmoveInto_start hn
  firstCluster := rfl

theorem store_holds (s : Scan) (hindex : s.fileIndex < 5) (buffer : Memory) (i : Nat) :
    Holds ((s.store hindex buffer i).files ⟨s.fileIndex, hindex⟩) buffer i := by
  show Holds (Function.update s.files _ _ _) buffer i
  rw [Function.update_self]
  exact recordEntry_holds _ buffer i

theorem store_of_ne {hindex : s.fileIndex < 5} (hk : k ≠ ⟨s.fileIndex, hindex⟩) :
    (s.store hindex buffer i).files k = s.files k :=
  Function.update_of_ne hk ..

/-- A step leaves the names and clusters of all slots alone, or stores a regular entry
in the next slot. -/
theorem processEntry_cases (h : processEntry buffer s i = some s') :
    (s'.fileIndex = s.fileIndex ∧ ∀ k, (s'.files k).shortName = (s.files k).shortName ∧
      (s'.files k).firstCluster = (s.files k).firstCluster) ∨
    (Regular buffer i ∧ ∃ hindex : s.fileIndex < 5, s' = s.store hindex buffer i) := by
  rw [processEntry] at h
  by_cases hused : buffer i = entryUnused
  · rw [if_pos hused] at h
    cases h
    exact Or.inl ⟨rfl, fun _ => ⟨rfl, rfl⟩⟩
  rw [if_neg hused] at h
  by_cases hlfn : buffer (i + 11) = entryLfn
  · rw [if_pos hlfn] at h
    cases h
    refine Or.inl ⟨rfl, fun k => ?_⟩
    by_cases hk : k = 0
    · subst hk
      simp only [Function.update_self, readFilenameFromLfn, and_self]
    · simp only [Function.update_of_ne hk, and_self]
  rw [if_neg hlfn] at h
  by_cases hdir : buffer (i + 11) = entryDir
  · rw [if_pos hdir] at h
    cases h
    exact Or.inl ⟨rfl, fun _ => ⟨rfl, rfl⟩⟩
  rw [if_neg hdir] at h
  by_cases hfound : s.foundfile = true
  · rw [if_pos hfound] at h
    by_cases hindex : s.fileIndex < 5
    · rw [dif_pos hindex] at h
      cases h
      exact Or.inr ⟨⟨hused, hlfn, hdir⟩, hindex, rfl⟩
    · rw [dif_neg hindex] at h
      cases h
  · rw [if_neg hfound] at h
    cases h
    exact Or.inl ⟨rfl, fun _ => ⟨rfl, rfl⟩⟩

/-- A long entry announces the next 8.3 entry. -/
theorem processEntry_lfn (hused : buffer i ≠ entryUnused) (hlfn : buffer (i + 11) = entryLfn)
    (h : processEntry buffer s i = some s') : s'.foundfile = true := by
  rw [processEntry, if_neg hused, if_pos hlfn] at h
  cases h
  rfl

/-- An announced regular entry takes the next slot. -/
theorem processEntry_regular (hreg : Regular buffer i) (hfound : s.foundfile = true)
    (h : processEntry buffer s i = some s') :
    ∃ k : Fin 5, k.val < s'.fileIndex ∧ Holds (s'.files k) buffer i := by
  rw [processEntry, if_neg hreg.used, if_neg hreg.short, if_neg hreg.file, if_pos hfound] at h
  by_cases hindex : s.fileIndex < 5
  · rw [dif_pos hindex] at h
    cases h
    exact ⟨⟨s.fileIndex, hindex⟩, Nat.lt_succ_self _, store_holds s hindex buffer i⟩
  · rw [dif_neg hindex] at h
    cases h

/-- A filled slot is never stored to again. -/
theorem processEntry_keeps (hk : k.val < s.fileIndex) (hhold : Holds (s.files k) buffer o)
    (h : processEntry buffer s i = some s') :
    k.val < s'.fileIndex ∧ Holds (s'.files k) buffer o := by
  rcases processEntry_cases h with ⟨hindex, hsame⟩ | ⟨_, hindex, rfl⟩
  · refine ⟨hindex ▸ hk, ?_, ?_⟩
    · rw [(hsame k).1]
      exact hhold.shortName
    · rw [(hsame k).2]
      exact hhold.firstCluster
  · have hne : k ≠ ⟨s.fileIndex, hindex⟩ := by
      rintro rfl
      exact absurd hk (Nat.lt_irrefl _)
    refine ⟨Nat.lt_succ_of_lt hk, ?_⟩
    rw [store_of_ne hne]
    exact hhold

theorem run_keeps {is : List Nat} (hk : k.val < s.fileIndex) (hhold : Holds (s.files k) buffer o)
    (h : run (processEntry buffer) s is = some s') : Holds (s'.files k) buffer o :=
  (run_invariant (P := fun s => k.val < s.fileIndex ∧ Holds (s.files k) buffer o)
    (C := fun _ _ => True) (fun _ _ _ hs _ hstep => processEntry_keeps hs.1 hs.2 hstep)
    ⟨hk, hhold⟩ (along_of_forall fun _ _ _ => trivial) h).2

/-- The regular entry after a long entry ends up in a slot. -/
theorem run_records {pre post : List Nat} {p : Nat} (hused : buffer p ≠ entryUnused)
    (hlfn : buffer (p + 11) = entryLfn) (hreg : Regular buffer o)
    (h : run (processEntry buffer) s (pre ++ p :: o :: post) = some s') :
    ∃ k : Fin 5, Holds (s'.files k) buffer o := by
  rw [run_append] at h
  obtain ⟨s1, _, h⟩ := Option.bind_eq_some_iff.mp h
  rw [run_cons] at h
  obtain ⟨s2, hp, h⟩ := Option.bind_eq_some_iff.mp h
  rw [run_cons] at h
  obtain ⟨s3, ho, hpost⟩ := Option.bind_eq_some_iff.mp h
  obtain ⟨k, hk, hhold⟩ := processEntry_regular hreg (processEntry_lfn hused hlfn hp) ho
  exact ⟨k, run_keeps hk hhold hpost⟩

/-- Each slot still has its first name or holds one of the entries `A`. -/
def Origin (buffer : Memory) (files : Fin 5 → File) (A : List Nat) (s : Scan) : Prop :=
  ∀ k, (s.files k).shortName = (files k).shortName ∨
    ∃ o ∈ A, Regular buffer o ∧ Holds (s.files k) buffer o

theorem processEntry_origin {files : Fin 5 → File} {A : List Nat} (hs : Origin buffer files A s)
    (hi : i ∈ A) (h : processEntry buffer s i = some s') : Origin buffer files A s' := by
  intro k
  rcases processEntry_cases h with ⟨_, hsame⟩ | ⟨hreg, hindex, rfl⟩
  · rcases hs k with hname | ⟨o, ho, hreg, hhold⟩
    · exact Or.inl ((hsame k).1.trans hname)
    · refine Or.inr ⟨o, ho, hreg, ?_, ?_⟩
      · rw [(hsame k).1]
        exact hhold.shortName
      · rw [(hsame k).2]
        exact hhold.firstCluster
  · by_cases hk : k = ⟨s.fileIndex, hindex⟩
    · subst hk
      exact Or.inr ⟨i, hi, hreg, store_holds s hindex buffer i⟩
    · rw [store_of_ne hk]
      exact hs k

theorem run_origin {files : Fin 5 → File} {A : List Nat} (hs : Origin buffer files A s)
    (h : run (processEntry buffer) s A = some s') : Origin buffer files A s' :=
  run_invariant (C := fun _ i => i ∈ A) (fun _ _ _ hs hi hstep => processEntry_origin hs hi hstep)
    hs (along_of_forall fun _ _ hi => hi) h

/-! ## The entries the loop visits -/

theorem mem_visited (h : o ∈ visited buffer) : (∃ e < 16, o = 32 * e) ∧ buffer o ≠ 0 := by
  rw [visited] at h
  refine ⟨?_, by simpa using List.mem_takeWhile_imp h⟩
  obtain ⟨e, he, hoffset⟩ := List.mem_range'.mp ((List.takeWhile_prefix _).mem h)
  exact ⟨e, he, by omega⟩

/-- When entries `0` to `e + 1` are in use, the loop visits entry `e` and then the next. -/
theorem visited_split {e : Nat} (he : e + 1 < 16) (hnonzero : ∀ d ≤ e + 1, buffer (32 * d) ≠ 0) :
    ∃ pre post, visited buffer = pre ++ 32 * e :: 32 * (e + 1) :: post := by
  have hsplit : List.range' 0 16 32 =
      List.range' 0 (e + 2) 32 ++ List.range' (32 * (e + 2)) (14 - e) 32 := by
    rw [show 32 * (e + 2) = 0 + 32 * (e + 2) by omega, List.range'_append]
    congr 1
    omega
  have hfront : List.range' 0 (e + 2) 32 = List.range' 0 e 32 ++ [32 * e, 32 * (e + 1)] := by
    rw [List.range'_concat, List.range'_concat]
    simp
  refine ⟨List.range' 0 e 32,
    (List.range' (32 * (e + 2)) (14 - e) 32).takeWhile (fun i => buffer i ≠ 0), ?_⟩
  rw [visited, hsplit, List.takeWhile_append_of_pos, hfront]
  · simp
  · intro i hi
    obtain ⟨d, hd, rfl⟩ := List.mem_range'.mp hi
    have hd := hnonzero d (by omega)
    rw [Nat.zero_add]
    exact decide_eq_true hd

end PaskakasaOS.Kernel.Storage.Directory
