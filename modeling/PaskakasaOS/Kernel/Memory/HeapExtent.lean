import PaskakasaOS.Kernel.Memory.HeapContainment

/-!
# Where a run of `kalloc` calls writes

Requests for at least four words lay their blocks end to end, so the place of every
header and of every range returned follows from the words served before. A property
of all of them is one of the words served.
-/
namespace PaskakasaOS.Kernel.Memory.HeapExtent

open Lib.ByteMemory Lib.Layout Lib.Runs
open VmmTree (and_page_mask)
open InitPaging (kernelStart)
open Alloc HeapList HeapContainment

/-- The words cut off after a request, from the test of `kalloc` on the free block. -/
def serveWords (words : Nat) (n : Int32) : Nat :=
  if words + toU64 n < 128 * 1024 then words + toU64 n else words

def wordsServed (requests : List Int32) : Nat := requests.foldl serveWords 0

/-- The headers that the call writes and the range it returns all satisfy `Q`, which
takes the start and the length of a range. -/
structure CallWithin (Q : Nat → Nat → Prop) (h : Heap) (n : Int32) : Prop where
  headers : ∀ b ∈ headersWritten h n, Q b sizeofBlock
  range : ∀ p h', kalloc h n = some (p, h') → p ≠ 0 → Q p (toU64 n)

/-- So do the header of `install_heap` and everything that the calls write and return. -/
def RunWithin (Q : Nat → Nat → Prop) (image : Image) (m : Memory) (requests : List Int32) : Prop :=
  Q (installHeap image m).heapStart sizeofBlock ∧
    ∀ k n, requests[k]? = some n →
      ∃ h, run heapStep (installHeap image m) (requests.take k) = some h ∧ CallWithin Q h n

theorem installHeap_heapStart (image : Image) (m : Memory) :
    (installHeap image m).heapStart = (image.kernelEnd + 0x1000) / 0x1000 * 0x1000 := by
  have hmask : (0xFFFFFFFFFFFFF000 : Nat) = 2 ^ 12 * (2 ^ 52 - 1) := by decide
  have hfits := image.fits
  rw [sizeofBlock] at hfits
  rw [installHeap, hmask, and_page_mask]
  show 4096 * _ = _
  omega

theorem wordsServed_snoc (requests : List Int32) (n : Int32) :
    wordsServed (requests ++ [n]) = serveWords (wordsServed requests) n :=
  List.foldl_append

section Calls

variable {Q : Nat → Nat → Prop} {h : Heap} {used : List Nat} {free : Nat} {n : Int32}

/-- A request leaves the list whole, with the words served on it. -/
theorem Chained.heapStep (hc : Chained h used free) (hthree : 3 ≤ toU64 n) :
    ∃ h' used', heapStep h n = some h' ∧ h'.heapStart = h.heapStart ∧ h'.heapSize = h.heapSize ∧
      if toU64 n < free then used' = used ++ [toU64 n] ∧ Chained h' used' (free - toU64 n)
      else used' = used ∧ Chained h' used free := by
  rw [HeapContainment.heapStep, hc.kalloc n]
  by_cases hn : toU64 n < free
  · refine ⟨splitBlock h h.freePtr n, used ++ [toU64 n], ?_, rfl, rfl, ?_⟩
    · rw [if_pos hn]
      rfl
    · rw [if_pos hn]
      exact ⟨rfl, hc.split hthree hn⟩
  · refine ⟨h, used, ?_, rfl, rfl, ?_⟩
    · rw [if_neg hn]
      rfl
    · rw [if_neg hn]
      exact ⟨rfl, hc⟩

/-- A request that is served writes the headers of its block and of the one behind it. -/
theorem callWithin_iff (hc : Chained h used free) (hn : toU64 n < free) :
    CallWithin Q h n ↔ Q (h.heapStart + 8 * used.sum) sizeofBlock ∧
      Q (h.heapStart + 8 * (used.sum + toU64 n)) sizeofBlock ∧
      Q (h.heapStart + 8 * used.sum + sizeofBlock) (toU64 n) := by
  have hptr := hc.freePtr
  have hnew := hc.new_lt hn
  have hw := hc.window
  have ht := hc.total
  have hpos := hc.nonnull
  have hfits : Fits h.mem h.freePtr n := (hc.fits_last n).mpr hn
  have hheaders : headersWritten h n =
      [h.heapStart + 8 * (used.sum + toU64 n), h.heapStart + 8 * used.sum] := by
    rw [headersWritten, splitTarget, if_pos hfits]
    show [(h.freePtr + 8 * toU64 n) % 2 ^ 64, h.freePtr] = _
    rw [hnew, hptr, Nat.mul_add, Nat.add_assoc]
  have haddress : (take h h.freePtr n).1 = h.heapStart + 8 * used.sum + sizeofBlock := by
    rw [take, hptr]
    exact Nat.mod_eq_of_lt (by omega)
  have hkalloc : kalloc h n = some (take h h.freePtr n) := by rw [hc.kalloc n, if_pos hn]
  constructor
  · intro hcall
    refine ⟨hcall.headers _ ?_, hcall.headers _ ?_, ?_⟩
    · rw [hheaders]
      exact List.mem_cons_of_mem _ List.mem_cons_self
    · rw [hheaders]
      exact List.mem_cons_self
    · rw [← haddress]
      exact hcall.range _ _ hkalloc (by rw [haddress]; omega)
  · intro hall
    obtain ⟨hold, hback, hrange⟩ := hall
    constructor
    · intro b hb
      rw [hheaders] at hb
      simp only [List.mem_cons, List.not_mem_nil, or_false] at hb
      rcases hb with rfl | rfl
      · exact hback
      · exact hold
    · intro p h' heq _
      rw [hkalloc] at heq
      have hp : (take h h.freePtr n).1 = p := congrArg Prod.fst (Option.some.inj heq)
      rwa [← hp, haddress]

theorem callWithin_refused (hc : Chained h used free) (hn : free ≤ toU64 n) : CallWithin Q h n := by
  obtain ⟨htarget, hnull⟩ := refused_of_chained hc hn
  constructor
  · intro b hb
    rw [headersWritten, htarget] at hb
    cases hb
  · intro p h' heq hp
    rw [hnull] at heq
    exact absurd (Prod.mk.inj (Option.some.inj heq)).1.symm hp

end Calls

section Runs

variable {Q : Nat → Nat → Prop} (image : Image) (m : Memory) {requests : List Int32}

/-- The heap after requests for at least three words. -/
theorem run_chained (hthree : ∀ n ∈ requests, 3 ≤ n.toInt) :
    ∃ h used, run heapStep (installHeap image m) requests = some h ∧
      h.heapStart = (installHeap image m).heapStart ∧ used.sum = wordsServed requests ∧
      Chained h used (128 * 1024 - wordsServed requests) := by
  induction requests using List.reverseRecOn with
  | nil => exact ⟨_, [], rfl, rfl, rfl, (listed_installHeap image m).chained⟩
  | append_singleton requests n ih =>
    obtain ⟨h, used, hrun, hstart, hsum, hc⟩ := ih (fun n' hn' => hthree n' (List.mem_append_left _ hn'))
    have hn := hthree n (List.mem_append_right _ List.mem_cons_self)
    have hint := toU64_of_nonneg (n := n) (by omega)
    obtain ⟨h', used', hstep, hstart', _, hnext⟩ := Chained.heapStep hc (n := n) (by omega)
    refine ⟨h', used', by rw [run_snoc_of hrun, hstep], hstart'.trans hstart, ?_⟩
    rw [wordsServed_snoc, serveWords]
    by_cases hserved : wordsServed requests + toU64 n < 128 * 1024
    · rw [if_pos (by omega)] at hnext
      obtain ⟨rfl, hc'⟩ := hnext
      rw [if_pos hserved, List.sum_append, List.sum_singleton, hsum, Nat.sub_add_eq]
      exact ⟨rfl, hc'⟩
    · rw [if_neg (by omega)] at hnext
      obtain ⟨rfl, hc'⟩ := hnext
      rw [if_neg hserved]
      exact ⟨hsum, hc'⟩

/-- A run stays within `Q` exactly when, for every request that is served, the header
of its block, the one behind it and the bytes of the request do. -/
theorem runWithin_iff (hthree : ∀ n ∈ requests, 3 ≤ n.toInt) :
    RunWithin Q image m requests ↔ Q (installHeap image m).heapStart sizeofBlock ∧
      ∀ k n, requests[k]? = some n → wordsServed (requests.take k) + toU64 n < 128 * 1024 →
        Q ((installHeap image m).heapStart + 8 * wordsServed (requests.take k)) sizeofBlock ∧
        Q ((installHeap image m).heapStart + 8 * (wordsServed (requests.take k) + toU64 n)) sizeofBlock ∧
        Q ((installHeap image m).heapStart + 8 * wordsServed (requests.take k) + sizeofBlock)
          (toU64 n) := by
  have hprefix : ∀ k, ∃ h used, run heapStep (installHeap image m) (requests.take k) = some h ∧
      h.heapStart = (installHeap image m).heapStart ∧ used.sum = wordsServed (requests.take k) ∧
      Chained h used (128 * 1024 - wordsServed (requests.take k)) :=
    fun k => run_chained image m (fun n hn => hthree n (List.mem_of_mem_take hn))
  refine and_congr_right fun _ => ?_
  constructor
  · intro hall k n hk hserved
    obtain ⟨h, used, hrun, hstart, hsum, hc⟩ := hprefix k
    obtain ⟨h', hrun', hcall⟩ := hall k n hk
    rw [hrun] at hrun'
    obtain rfl := Option.some.inj hrun'
    rwa [callWithin_iff hc (by omega), hsum, hstart] at hcall
  · intro hall k n hk
    obtain ⟨h, used, hrun, hstart, hsum, hc⟩ := hprefix k
    refine ⟨h, hrun, ?_⟩
    by_cases hserved : wordsServed (requests.take k) + toU64 n < 128 * 1024
    · rw [callWithin_iff hc (by omega), hsum, hstart]
      exact hall k n hk hserved
    · exact callWithin_refused hc (by omega)

/-- A run stays within `Q` exactly when every request meets a condition that says so of
the words served before it and its own. -/
theorem runWithin_iff_forall {C : Nat → Nat → Prop} (hthree : ∀ n ∈ requests, 3 ≤ n.toInt)
    (hfirst : Q (installHeap image m).heapStart sizeofBlock)
    (hrefused : ∀ words n, 128 * 1024 ≤ words + n → C words n)
    (hserved : ∀ words n, 0 < n → words + n < 128 * 1024 →
      (Q ((installHeap image m).heapStart + 8 * words) sizeofBlock ∧
        Q ((installHeap image m).heapStart + 8 * (words + n)) sizeofBlock ∧
        Q ((installHeap image m).heapStart + 8 * words + sizeofBlock) n ↔ C words n)) :
    RunWithin Q image m requests ↔
      ∀ k n, requests[k]? = some n → C (wordsServed (requests.take k)) (toU64 n) := by
  rw [runWithin_iff image m hthree, and_iff_right hfirst]
  refine forall_congr' fun k => forall_congr' fun n => forall_congr' fun hk => ?_
  have hn := hthree n (List.mem_of_getElem? hk)
  have hint := toU64_of_nonneg (n := n) (by omega)
  by_cases hlt : wordsServed (requests.take k) + toU64 n < 128 * 1024
  · rw [forall_prop_of_true hlt, hserved _ _ (by omega) hlt]
  · rw [forall_prop_of_false hlt]
    exact iff_of_true trivial (hrefused _ _ (by omega))

end Runs

end PaskakasaOS.Kernel.Memory.HeapExtent
