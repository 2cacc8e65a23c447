import PaskakasaOS.Lib.Runs
import PaskakasaOS.Kernel.Memory.HeapList

/-!
# Runs of the heap and its callers

Between two `kalloc` calls the callers write into the bytes they were given. As
long as every request that is served asks for at least four words, the heap stays
well-formed through any such run.
-/
namespace PaskakasaOS.Kernel.Memory.HeapRuns

open Lib.ByteMemory Lib.Layout Lib.Runs
open Alloc HeapList

/-- A `kalloc(n)` call, or a write to byte `offset` of the `i`-th block that was served. -/
inductive Event where
  | request (n : Int32)
  | write (i offset : Nat) (value : UInt8)

/-- The heap and the address and byte count of every block that was served. -/
structure Session where
  heap : Heap
  grants : List (Nat × Nat)

def start (image : Image) (m : Memory) : Session := ⟨installHeap image m, []⟩

def Session.request (s : Session) (n : Int32) : Option Session :=
  (kalloc s.heap n).map fun r =>
    { heap := r.2, grants := if r.1 = 0 then s.grants else s.grants ++ [(r.1, toU64 n)] }

/-- A caller writes only inside its bytes: outside of them nothing happens. -/
def Session.write (s : Session) (i offset : Nat) (value : UInt8) : Session :=
  match s.grants[i]? with
  | none => s
  | some g =>
    if offset < g.2 then
      { s with heap := { s.heap with mem := Function.update s.heap.mem (g.1 + offset) value } }
    else s

def step (s : Session) : Event → Option Session
  | .request n => s.request n
  | .write i offset value => some (s.write i offset value)

/-- The words of the free block after a request, by the test of `kalloc` alone. -/
def serve (free : Nat) : Event → Nat
  | .request n => if toU64 n < free then free - toU64 n else free
  | .write _ _ _ => free

/-- The words of the free block after a run. -/
def remaining (events : List Event) : Nat := events.foldl serve (128 * 1024)

/-- The blocks served are exactly the used blocks of a well-formed heap. -/
structure Served (s : Session) (used : List Nat) (free : Nat) : Prop where
  listed : Listed s.heap used free
  grants : s.grants = (layout 8 s.heap.heapStart used).map (fun x => (x.1 + sizeofBlock, x.2))

/-! ## One request -/

/-- The address `kalloc` returns for the free block of a well-formed heap. -/
theorem take_address {h : Heap} {used : List Nat} {free : Nat} (hl : Listed h used free) (n : Int32) :
    (take h h.freePtr n).1 = h.heapStart + 8 * used.sum + sizeofBlock := by
  have hw := hl.window
  have ht := hl.total
  have hr := hl.rest
  rw [take, hl.freePtr]
  exact Nat.mod_eq_of_lt (by omega)

/-- A request that does not fit changes nothing. -/
theorem Served.refused {s : Session} {used : List Nat} {free : Nat} {n : Int32}
    (hs : Served s used free) (hn : free ≤ toU64 n) : s.request n = some s := by
  rw [Session.request, hs.listed.chained.kalloc n, if_neg (by omega)]
  rfl

/-- A request that fits gets the front of the free block. -/
theorem Served.granted {s : Session} {used : List Nat} {free : Nat} {n : Int32}
    (hs : Served s used free) (hn : toU64 n < free) :
    s.request n = some
      { heap := splitBlock s.heap s.heap.freePtr n
        grants := s.grants ++ [(s.heap.heapStart + 8 * used.sum + sizeofBlock, toU64 n)] } := by
  have haddress := take_address hs.listed n
  have hnull : (take s.heap s.heap.freePtr n).1 ≠ 0 := by
    rw [haddress, sizeofBlock]
    omega
  rw [Session.request, hs.listed.chained.kalloc n, if_pos hn, Option.map_some, if_neg hnull, haddress]
  rfl

theorem Served.split {s s' : Session} {used : List Nat} {free : Nat} {n : Int32}
    (hs : Served s used free) (hlarge : 4 ≤ toU64 n) (hn : toU64 n < free)
    (h : s.request n = some s') : Served s' (used ++ [toU64 n]) (free - toU64 n) := by
  rw [hs.granted hn] at h
  obtain rfl := Option.some.inj h
  refine ⟨hs.listed.split hlarge hn, ?_⟩
  show s.grants ++ _ = (layout 8 s.heap.heapStart _).map _
  rw [layout_snoc, List.map_append, hs.grants]
  rfl

/-! ## One write by a caller -/

/-- A byte of a served block lies outside of every header. -/
theorem Served.outside {s : Session} {used : List Nat} {free : Nat} (hs : Served s used free)
    {g : Nat × Nat} (hg : g ∈ s.grants) {x : Nat × Nat}
    (hx : x ∈ layout 8 s.heap.heapStart (used ++ [free])) :
    g.1 + g.2 ≤ x.1 ∨ x.1 + sizeofBlock ≤ g.1 := by
  rw [hs.grants, List.mem_map] at hg
  obtain ⟨y, hy, rfl⟩ := hg
  have hfour := hs.listed.large y.2 (mem_sizes hy)
  rw [layout_snoc, List.mem_append, List.mem_singleton] at hx
  rcases hx with hx | rfl
  · have hfour' := hs.listed.large x.2 (mem_sizes hx)
    rcases layout_trichotomy hx hy with rfl | hxy | hyx
    · exact Or.inr (Nat.le_refl _)
    · rw [sizeofBlock]
      omega
    · rw [sizeofBlock]
      omega
  · have hbound := (layout_bounds hy).2
    rw [sizeofBlock]
    omega

theorem Served.write {s : Session} {used : List Nat} {free : Nat} (hs : Served s used free)
    (i offset : Nat) (value : UInt8) : Served (s.write i offset value) used free := by
  rw [Session.write]
  cases hi : s.grants[i]? with
  | none => exact hs
  | some g =>
    show Served (if offset < g.2 then _ else s) used free
    split
    · next hoffset =>
      have hg : g ∈ s.grants := List.mem_of_getElem? hi
      have hsame : ∀ x ∈ layout 8 s.heap.heapStart (used ++ [free]), ∀ a, x.1 ≤ a →
          a < x.1 + sizeofBlock → Function.update s.heap.mem (g.1 + offset) value a = s.heap.mem a := by
        intro x hx a hl hu
        have hout := hs.outside hg hx
        exact Function.update_of_ne (by omega) _ _
      have hl := hs.listed
      refine ⟨⟨hl.nonnull, hl.window, hl.total, hl.large, hl.rest, ?_, ?_, hl.freePtr⟩, hs.grants⟩
      · intro x hx
        refine (hl.blocks x hx).congr (hsame x ?_)
        rw [layout_snoc]
        exact List.mem_append_left _ hx
      · refine hl.last.congr (hsame (_, free) ?_)
        rw [layout_snoc]
        exact List.mem_append_right _ List.mem_cons_self
    · exact hs

/-! ## Runs -/

theorem served_start (image : Image) (m : Memory) : Served (start image m) [] (128 * 1024) :=
  ⟨listed_installHeap image m, rfl⟩

/-- An event that asks for at least four words, or that is refused, keeps the heap well-formed. -/
theorem Served.step {s : Session} {used : List Nat} {free : Nat} {e : Event} (hs : Served s used free)
    (he : ∀ n, e = .request n → 4 ≤ toU64 n ∨ free ≤ toU64 n) :
    ∃ s' used', step s e = some s' ∧ Served s' used' (serve free e) := by
  cases e with
  | request n =>
    rw [HeapRuns.step, serve]
    by_cases hn : toU64 n < free
    · have hlarge : 4 ≤ toU64 n := (he n rfl).resolve_right (by omega)
      rw [if_pos hn]
      exact ⟨_, _, hs.granted hn, hs.split hlarge hn (hs.granted hn)⟩
    · rw [if_neg hn]
      exact ⟨s, used, hs.refused (by omega), hs⟩
  | write i offset value => exact ⟨_, used, rfl, hs.write i offset value⟩

/-- The heap is well-formed after every prefix of a run, up to the first request
for fewer than four words that is served. -/
theorem served_run (image : Image) (m : Memory) {events : List Event}
    (hall : ∀ k n, events[k]? = some (.request n) →
      4 ≤ toU64 n ∨ remaining (events.take k) ≤ toU64 n) :
    ∃ s used, run step (start image m) events = some s ∧ Served s used (remaining events) := by
  induction events using List.reverseRecOn with
  | nil => exact ⟨_, [], rfl, served_start image m⟩
  | append_singleton events e ih =>
    have hprefix : ∀ k n, events[k]? = some (.request n) →
        4 ≤ toU64 n ∨ remaining (events.take k) ≤ toU64 n := by
      intro k n hk
      have hlt : k < events.length := (List.getElem?_eq_some_iff.mp hk).1
      have hk' := hall k n (by rw [List.getElem?_append_left hlt, hk])
      rwa [List.take_append_of_le_length hlt.le] at hk'
    obtain ⟨s, used, hrun, hs⟩ := ih hprefix
    have he : ∀ n, e = .request n → 4 ≤ toU64 n ∨ remaining events ≤ toU64 n := by
      rintro n rfl
      have hlast := hall events.length n (by simp)
      rwa [List.take_left'] at hlast
      rfl
    obtain ⟨s', used', hstep, hs'⟩ := hs.step he
    refine ⟨s', used', by rw [run_snoc_of hrun, hstep], ?_⟩
    rw [remaining, List.foldl_append]
    exact hs'

/-- What `kalloc` answers in a well-formed heap: null exactly when the free block
is not larger than the request. -/
theorem kalloc_null_iff {h : Heap} {used : List Nat} {free : Nat} (hl : Listed h used free)
    {n : Int32} (hn : 0 ≤ n.toInt) :
    ∃ p h', kalloc h n = some (p, h') ∧ (p = 0 ↔ (free : Int) ≤ n.toInt) := by
  have hsigned := toU64_of_nonneg hn
  rw [hl.chained.kalloc n]
  by_cases hlt : toU64 n < free
  · rw [if_pos hlt]
    refine ⟨(take h h.freePtr n).1, (take h h.freePtr n).2, rfl, ?_⟩
    rw [take_address hl n, sizeofBlock]
    omega
  · rw [if_neg hlt]
    exact ⟨0, h, rfl, by omega⟩

/-- After any run of requests for at least four words, and of writes by their
callers, the list from `heap_start` covers the heap, its last block alone is free
and is the one `free_ptr` points to, and `kalloc` is first fit. -/
theorem kalloc_keeps_list (image : Image) (m : Memory) (events : List Event)
    (hlarge : ∀ n, Event.request n ∈ events → 4 ≤ n.toInt) :
    ∃ s used free, run step (start image m) events = some s ∧
      blocksFrom s.heap.mem (used.length + 2) s.heap.heapStart =
        some ((layout 8 s.heap.heapStart (used ++ [free])).map Prod.fst) ∧
      (∀ x ∈ layout 8 s.heap.heapStart (used ++ [free]), blockSize s.heap.mem x.1 = x.2) ∧
      (used ++ [free]).sum = s.heap.heapSize ∧
      (∀ x ∈ layout 8 s.heap.heapStart used, blockStatus s.heap.mem x.1 = BLOCK_USED) ∧
      s.heap.freePtr = s.heap.heapStart + 8 * used.sum ∧
      blockStatus s.heap.mem s.heap.freePtr = BLOCK_FREE ∧
      ∀ n, kalloc s.heap n = firstFit s.heap n ∧
        (0 ≤ n.toInt → ∃ p h, kalloc s.heap n = some (p, h) ∧ (p = 0 ↔ (free : Int) ≤ n.toInt)) := by
  have hall : ∀ k n, events[k]? = some (.request n) →
      4 ≤ toU64 n ∨ remaining (events.take k) ≤ toU64 n := by
    intro k n hk
    have hfour := hlarge n (List.mem_of_getElem? hk)
    have hsigned := toU64_of_nonneg (n := n) (by omega)
    omega
  obtain ⟨s, used, hrun, hs⟩ := served_run image m hall
  have hl := hs.listed
  refine ⟨s, used, remaining events, hrun, hl.chained.blocksFrom, ?_, ?_, ?_, hl.freePtr, ?_, ?_⟩
  · intro x hx
    rw [layout_snoc, List.mem_append, List.mem_singleton] at hx
    rcases hx with hx | rfl
    · exact (hl.blocks x hx).size
    · exact hl.last.size
  · rw [List.sum_append, List.sum_singleton]
    exact hl.total
  · intro x hx
    exact (hl.blocks x hx).status
  · rw [hl.freePtr]
    exact hl.last.status
  · intro n
    exact ⟨(hl.chained.kalloc n).trans (hl.chained.firstFit n).symm, kalloc_null_iff hl⟩

/-- A kernel image of 128 KiB. -/
def sampleImage : Image where
  kernelEnd := 0xFFFFFFFF80020000
  linked := by decide
  fits := by decide

/-- The stacks of three processes, and a write into the second of them. -/
theorem kalloc_keeps_list_stacks :
    ∃ s used free, run step (start sampleImage (fun _ => 0))
        [.request 0x4000, .request 0x4000, .write 1 7 0xFF, .request 0x4000] = some s ∧
      blocksFrom s.heap.mem (used.length + 2) s.heap.heapStart =
        some ((layout 8 s.heap.heapStart (used ++ [free])).map Prod.fst) ∧
      (∀ x ∈ layout 8 s.heap.heapStart (used ++ [free]), blockSize s.heap.mem x.1 = x.2) ∧
      (used ++ [free]).sum = s.heap.heapSize ∧
      (∀ x ∈ layout 8 s.heap.heapStart used, blockStatus s.heap.mem x.1 = BLOCK_USED) ∧
      s.heap.freePtr = s.heap.heapStart + 8 * used.sum ∧
      blockStatus s.heap.mem s.heap.freePtr = BLOCK_FREE ∧
      ∀ n, kalloc s.heap n = firstFit s.heap n ∧
        (0 ≤ n.toInt → ∃ p h, kalloc s.heap n = some (p, h) ∧ (p = 0 ↔ (free : Int) ≤ n.toInt)) :=
  kalloc_keeps_list sampleImage (fun _ => 0) _ (by
    intro n hn
    simp only [List.mem_cons, Event.request.injEq, List.not_mem_nil, or_false, reduceCtorEq,
      false_or] at hn
    rcases hn with rfl | rfl | rfl <;> decide)

end PaskakasaOS.Kernel.Memory.HeapRuns
