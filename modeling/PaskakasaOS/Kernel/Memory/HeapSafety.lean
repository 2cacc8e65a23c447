import PaskakasaOS.Kernel.Memory.HeapRuns

/-!
# When the heap keeps its blocks apart

`split_block` counts words while the payload starts 24 bytes into the block. A
block of one, two or three words ends before the first byte of its payload is
past the next header, so serving such a request hands out bytes of the list.
-/
namespace PaskakasaOS.Kernel.Memory.HeapSafety

open Lib.ByteMemory Lib.Layout Lib.Runs
open Alloc HeapList HeapRuns

/-- The same blocks with the same headers. -/
def SameList (h h' : Heap) : Prop :=
  ∀ b, (OnList h'.mem h'.heapStart b ↔ OnList h.mem h.heapStart b) ∧
    (OnList h.mem h.heapStart b → ∀ a, b ≤ a → a < b + sizeofBlock → h'.mem a = h.mem a)

/-- The served ranges are apart from each other and from the headers on the
list, so that no write by a caller changes the list. -/
structure Safe (s : Session) : Prop where
  disjoint : s.grants.Pairwise (fun g g' => g.1 + g.2 ≤ g'.1 ∨ g'.1 + g'.2 ≤ g.1)
  headers : ∀ b, OnList s.heap.mem s.heap.heapStart b →
    ∀ g ∈ s.grants, g.1 + g.2 ≤ b ∨ b + sizeofBlock ≤ g.1
  writes : ∀ i offset value, SameList s.heap (s.write i offset value).heap

/-- Writes outside of the headers on the list leave it alone. -/
theorem sameList_write {s : Session}
    (hheaders : ∀ b, OnList s.heap.mem s.heap.heapStart b →
      ∀ g ∈ s.grants, g.1 + g.2 ≤ b ∨ b + sizeofBlock ≤ g.1)
    (i offset : Nat) (value : UInt8) : SameList s.heap (s.write i offset value).heap := by
  have hrefl : SameList s.heap s.heap := fun b => ⟨Iff.rfl, fun _ _ _ _ => rfl⟩
  rw [Session.write]
  cases hi : s.grants[i]? with
  | none => exact hrefl
  | some g =>
    show SameList s.heap (if offset < g.2 then _ else s).heap
    split
    · next hoffset =>
      have hsame : ∀ b, OnList s.heap.mem s.heap.heapStart b → ∀ a, b ≤ a → a < b + sizeofBlock →
          Function.update s.heap.mem (g.1 + offset) value a = s.heap.mem a := by
        intro b hb a hl hu
        have hout := hheaders b hb g (List.mem_of_getElem? hi)
        exact Function.update_of_ne (by omega) _ _
      intro b
      refine ⟨⟨?_, fun hb => hb.congr hsame⟩, hsame b⟩
      intro hb
      change OnList (Function.update s.heap.mem (g.1 + offset) value) s.heap.heapStart b at hb
      induction hb with
      | first h => exact OnList.first h
      | @next c _ hn ih =>
        have hnext : blockNext (Function.update s.heap.mem (g.1 + offset) value) c =
            blockNext s.heap.mem c := by
          apply readLE_congr
          intro j hj
          exact hsame c ih _ (by omega) (by rw [sizeofBlock]; omega)
        rw [hnext] at hn ⊢
        exact ih.next hn
    · exact hrefl

/-- A well-formed heap is safe. -/
theorem served_safe {s : Session} {used : List Nat} {free : Nat} (hs : Served s used free) :
    Safe s := by
  have hheaders : ∀ b, OnList s.heap.mem s.heap.heapStart b →
      ∀ g ∈ s.grants, g.1 + g.2 ≤ b ∨ b + sizeofBlock ≤ g.1 := by
    intro b hb g hg
    rw [onList_iff_mem hs.listed.chained.blocksFrom, List.mem_map] at hb
    obtain ⟨x, hx, rfl⟩ := hb
    exact hs.outside hg hx
  refine ⟨?_, hheaders, sameList_write hheaders⟩
  rw [hs.grants, List.pairwise_map]
  apply layout_pairwise.imp_of_mem
  intro x y hx _ hxy
  have hfour := hs.listed.large x.2 (mem_sizes hx)
  rw [sizeofBlock]
  omega

/-! ## Requests for one to three words -/

/-- The list of a heap with used blocks reaches what follows them. -/
theorem onList_used {m : Memory} {b c : Nat} {used : List Nat} (hb : 0 < b)
    (hblocks : ∀ x ∈ layout 8 b used, blockNext m x.1 = x.1 + 8 * x.2)
    (hc : OnList m (b + 8 * used.sum) c) : OnList m b c := by
  induction used generalizing b with
  | nil => exact hc
  | cons s used ih =>
    rw [List.sum_cons, Nat.mul_add, ← Nat.add_assoc] at hc
    have hhead := hblocks (b, s) List.mem_cons_self
    have htail := ih (b := b + 8 * s) (by omega)
      (fun x hx => hblocks x (List.mem_cons_of_mem _ hx)) hc
    exact OnList.cons (by omega) (hhead ▸ htail)

/-- A served block of fewer than four words holds bytes of the next header. -/
theorem served_small_unsafe {s s' : Session} {used : List Nat} {free : Nat} {n : Int32}
    (hs : Served s used free) (hpos : 0 < toU64 n) (hsmall : toU64 n < 4) (hn : toU64 n < free)
    (h : s.request n = some s') : ¬ Safe s' := by
  intro hsafe
  have hl := hs.listed
  have hnew := hl.chained.new_lt hn
  have hptr := hl.freePtr
  rw [hs.granted hn] at h
  obtain rfl := Option.some.inj h
  have hblocks : ∀ x ∈ layout 8 s.heap.heapStart used,
      blockNext (splitBlock s.heap s.heap.freePtr n).mem x.1 = x.1 + 8 * x.2 := by
    intro x hx
    have hbound := (layout_bounds hx).2
    have hfour := hl.large x.2 (mem_sizes hx)
    rw [← (hl.blocks x hx).next]
    apply readLE_congr
    intro i hi
    exact splitBlock_outside s.heap hnew (Or.inl (by omega)) (Or.inl (by omega))
  have hlink : blockNext (splitBlock s.heap s.heap.freePtr n).mem s.heap.freePtr =
      s.heap.heapStart + 8 * used.sum + 8 * toU64 n := by
    have hlt : s.heap.heapStart + 8 * used.sum + 8 * toU64 n < 2 ^ 64 :=
      hnew ▸ Nat.mod_lt _ (by decide)
    rw [splitBlock, hnew]
    exact blockNext_setNext _ hlt
  have hreach : OnList (splitBlock s.heap s.heap.freePtr n).mem s.heap.heapStart
      (s.heap.heapStart + 8 * used.sum + 8 * toU64 n) := by
    apply onList_used hl.nonnull hblocks
    have hstart := hl.nonnull
    rw [← hlink, ← hptr]
    exact (OnList.first (by omega)).next (by omega)
  have hapart := hsafe.headers _ hreach _ (List.mem_append_right _ List.mem_cons_self)
  unfold sizeofBlock at hapart
  omega

/-- The served ranges are disjoint from each other and from the block list, after
every prefix of a run, exactly when every request for one to three words is refused. -/
theorem kalloc_disjoint_iff (image : Image) (m : Memory) (events : List Event)
    (hpos : ∀ n, Event.request n ∈ events → 0 < n.toInt) :
    (∀ k, ∃ s, run step (start image m) (events.take k) = some s ∧ Safe s) ↔
      ∀ k n, events[k]? = some (.request n) →
        4 ≤ n.toInt ∨ (remaining (events.take k) : Int) ≤ n.toInt := by
  have hsigned : ∀ k n, events[k]? = some (Event.request n) → (toU64 n : Int) = n.toInt :=
    fun k n hk => toU64_of_nonneg (hpos n (List.mem_of_getElem? hk)).le
  have hprefix : ∀ k, (∀ j < k, ∀ n, events[j]? = some (Event.request n) →
      4 ≤ n.toInt ∨ (remaining (events.take j) : Int) ≤ n.toInt) →
      ∃ s used, run step (start image m) (events.take k) = some s ∧
        Served s used (remaining (events.take k)) := by
    intro k hk
    apply served_run
    intro j n hj
    have hlt : j < k := by
      have hlen := (List.getElem?_eq_some_iff.mp hj).1
      rw [List.length_take] at hlen
      omega
    rw [List.getElem?_take_of_lt hlt] at hj
    rw [List.take_take, Nat.min_eq_left hlt.le]
    have heq := hsigned j n hj
    have hcond := hk j hlt n hj
    omega
  constructor
  · intro hsafe k
    induction k using Nat.strong_induction_on with
    | h k ih =>
      intro n hk
      obtain ⟨s, used, hrun, hs⟩ := hprefix k ih
      by_contra hbad
      have heq := hsigned k n hk
      have hword := hpos n (List.mem_of_getElem? hk)
      obtain ⟨s', hrun', hsafe'⟩ := hsafe (k + 1)
      rw [run_take_succ hk, hrun, Option.bind_some] at hrun'
      exact served_small_unsafe hs (by omega) (by omega) (by omega) hrun' hsafe'
  · intro hcond k
    obtain ⟨s, used, hrun, hs⟩ := hprefix k (fun j _ => hcond j)
    exact ⟨s, hrun, served_safe hs⟩

/-- Two small requests: the first is served four words, the second would only be
refused by a full heap. -/
theorem kalloc_disjoint_iff_pair :
    (∀ k, ∃ s, run step (start sampleImage (fun _ => 0))
        ([.request 4, .write 0 3 0xFF, .request 2].take k) = some s ∧ Safe s) ↔
      ∀ k n, ([.request 4, .write 0 3 0xFF, .request 2] : List Event)[k]? = some (.request n) →
        4 ≤ n.toInt ∨
          (remaining ([.request 4, .write 0 3 0xFF, .request 2].take k) : Int) ≤ n.toInt :=
  kalloc_disjoint_iff sampleImage (fun _ => 0) _ (by
    intro n hn
    simp only [List.mem_cons, Event.request.injEq, List.not_mem_nil, or_false, reduceCtorEq,
      false_or] at hn
    rcases hn with rfl | rfl <;> decide)

/-- A first request for three words already shares bytes with the list. -/
theorem kalloc_three_overlaps :
    ¬ ∀ events : List Event, (∀ n, Event.request n ∈ events → 0 < n.toInt) →
      ∀ k, ∃ s, run step (start sampleImage (fun _ => 0)) (events.take k) = some s ∧ Safe s := by
  intro hclaim
  obtain ⟨s, hrun, hsafe⟩ := hclaim [.request 3] (by simp) 1
  simp only [List.take, run_cons, run_nil, Option.bind_fun_some, step] at hrun
  exact served_small_unsafe (served_start sampleImage _) (by decide) (by decide) (by decide) hrun hsafe

end PaskakasaOS.Kernel.Memory.HeapSafety
