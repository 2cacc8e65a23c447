import PaskakasaOS.Kernel.Memory.AddressSpace

/-!
# `map_page` on the last frames

`AddressSpace` follows the calls that find a frame for every table. Here the pool may run
out on the way. Where one frame is missing, page 0 becomes the last table and the page is
mapped all the same; where more are missing, page 0 is a table on several levels.
-/
namespace PaskakasaOS.Kernel.Memory.LastFrames

open Lib.ByteMemory Lib.TableTree
open Utils.Mem (memset memset_eq_fill)
open Pmm Vmm VmmTree MapPage AddressSpace

/-- The tables form a tree, and page 0 is neither a table nor a page of the pool. -/
structure Rooted (s : Vm) (r : Nat) : Prop where
  inv : TreeInv s r
  base : s.pool.base ≠ 0
  zero : Fresh (slot s.mem) r 3 0

/-- The states that calls of `map_page` and `pmm_allocate` reach from a zeroed `pml`, whatever
they answer, with stores in between that miss the tables. -/
inductive Booted : Vm → Prop
  | zeroed {m : Memory} {pool pool' : Pool} {frame : Nat} (hf : Framed pool)
      (hbase : pool.base = 0 → pool.pages = 0) (ha : pmmAllocate pool = some (frame, pool')) :
      Booted ⟨memset m frame 0 0x1000, pool', frame⟩
  | mapped {s s' : Vm} {v p : Nat} (hs : Booted s) (hm : mapPage s v p = some s') : Booted s'
  | allocated {s : Vm} {pool' : Pool} {frame : Nat} (hs : Booted s)
      (ha : pmmAllocate s.pool = some (frame, pool')) : Booted { s with pool := pool' }
  | stored {s : Vm} {m : Memory} (hs : Booted s)
      (hkeep : ∀ (q : Path) t, q.length ≤ 3 → follow (tables s.mem) s.pml q = some t →
        ∀ i : Fin 512, entry m t i = entry s.mem t i) : Booted { s with mem := m }

/-- The tables missing on the way from table `f` along `q`. -/
def needs (σ : Nat → Fin 512 → Option Nat) (f : Nat) : Path → Nat
  | [] => 0
  | i :: q =>
    match σ f i with
    | none => q.length + 1
    | some c => needs σ c q

/-- Frame `f` is a table already, page 0, or a frame that can be handed out. -/
def Provided (s : Vm) (r f : Nat) : Prop :=
  (∃ q : Path, q.length ≤ 3 ∧ follow (slot s.mem) r q = some f) ∨ f = 0 ∨
    ∃ j, IsFree s.pool j ∧ f = frameNumber s.pool j

/-- The pool has lost frames at most, and `pml` is the same. -/
structure Onward (s s' : Vm) : Prop where
  later : Later s.pool s'.pool
  pml : s'.pml = s.pml

/-- Tables were added, and nothing was mapped. -/
structure Grown (s s' : Vm) (r : Nat) : Prop where
  inv : TreeInv s' r
  later : Later s.pool s'.pool
  pages : ∀ q : Path, q.length = 4 → follow (slot s'.mem) r q = follow (slot s.mem) r q
  tables : ∀ (q : Path) f, q.length ≤ 3 → follow (slot s'.mem) r q = some f → Provided s r f

/-- The empty pool answers 0, and page 0 becomes the table at path `q`. -/
structure LinksZero (s s' : Vm) (r f : Nat) (i : Fin 512) (q : Path) : Prop where
  empty : freeFrames s.pool = 0
  covered : s.pool.pages ≤ 100
  absent : slot s.mem f i = none
  inv : TreeInv s' r
  pool : s'.pool = s.pool
  slots : slot s'.mem = link (slot s.mem) f i 0
  paths : ∀ q' : Path, q'.length ≤ 4 → follow (slot s'.mem) r q' =
    if q' = q then some 0 else follow (slot s.mem) r q'

section Frames

variable {σ : Nat → Fin 512 → Option Nat} {f : Nat} {q : Path}

theorem needs_empty (h : ∀ i, σ f i = none) : needs σ f q = q.length := by
  cases q with
  | nil => rfl
  | cons i q => rw [needs, h i, List.length_cons]

theorem tablesNeeded_eq_needs (m : Memory) (r v : Nat) :
    tablesNeeded m (4096 * r) v = needs (slot m) r (level3 v) := by
  have h1 := target_eq m r ⟨pml4Index v, pml4Index_lt v⟩
  rw [tablesNeeded, h1, show level3 v = [⟨pml4Index v, pml4Index_lt v⟩,
    ⟨pudIndex v, pudIndex_lt v⟩, ⟨pmdIndex v, pmdIndex_lt v⟩] by rfl, needs]
  cases slot m r ⟨pml4Index v, pml4Index_lt v⟩ with
  | none => rfl
  | some pud =>
    have h2 := target_eq m pud ⟨pudIndex v, pudIndex_lt v⟩
    simp only [Option.map_some, h2, needs]
    cases slot m pud ⟨pudIndex v, pudIndex_lt v⟩ with
    | none => rfl
    | some pmd =>
      have h3 := target_eq m pmd ⟨pmdIndex v, pmdIndex_lt v⟩
      simp only [Option.map_some, h3]
      cases slot m pmd ⟨pmdIndex v, pmdIndex_lt v⟩ <;> rfl

end Frames

/-! ## One table -/

section Step

variable {s s' s'' : Vm} {r f t : Nat} {p q : Path} {i : Fin 512}

theorem Onward.trans (h : Onward s s') (h' : Onward s' s'') : Onward s s'' :=
  ⟨h.later.trans h'.later, h'.pml.trans h.pml⟩

theorem nextTable_onward {table i : Nat} (h : nextTable s table i = some (t, s')) : Onward s s' := by
  rcases nextTable_inv h with ⟨_, pool, ha, rfl⟩ | ⟨_, _, rfl⟩
  · exact ⟨pmmAllocate_later ha, rfl⟩
  · exact ⟨Later.refl _, rfl⟩

theorem number_ne_zero (hf : Framed s.pool) (hbase : s.pool.base ≠ 0) (j : Nat) :
    frameNumber s.pool j ≠ 0 := by
  have hal := hf.aligned
  rw [PAGESIZE] at hal
  rw [frameNumber, PAGESIZE]
  omega

theorem Rooted.descends {c : Nat} (hs : Rooted s r) (hd : Descends s s' r q c)
    (hlater : Later s.pool s'.pool) (hc : c ≠ 0) : Rooted s' r := by
  refine ⟨hd.inv, hlater.base ▸ hs.base, fun q' hq' => ?_⟩
  by_cases heq : q' = q
  · rw [heq, hd.reaches]
    exact fun hzero => hc (Option.some.inj hzero)
  · rw [hd.other q' (by omega) heq]
    exact hs.zero q' hq'

/-- A table is found or added from the pool, unless the pool is empty. -/
theorem nextTable_cases (hs : Rooted s r) (hp : follow (slot s.mem) r p = some f)
    (hlen : p.length < 3) (h : nextTable s (4096 * f) i = some (t, s')) :
    (∃ c, t = 4096 * c ∧ Rooted s' r ∧ Descends s s' r (p ++ [i]) c ∧ Provided s r c) ∨
      (t = 0 ∧ LinksZero s s' r f i (p ++ [i])) := by
  have hstep : follow (slot s.mem) r (p ++ [i]) = slot s.mem f i := follow_step hp
  rcases nextTable_inv h with ⟨habsent, pool', ha, _⟩ | ⟨hpresent, _, _⟩
  · rw [and_present] at habsent
    have hnone : slot s.mem f i = none := by rw [slot, decode, if_pos habsent]
    by_cases hempty : freeFrames s.pool = 0
    · right
      obtain ⟨rfl, rfl, hpages⟩ := pmmAllocate_empty hempty ha
      obtain ⟨mem', hnext, hslots, hinv, hpaths⟩ := nextTable_link (c := 0) hs.inv hp hlen habsent ha
        (by decide) hs.zero (fun j _ => (number_ne_zero hs.inv.framed hs.base j).symm)
      rw [hnext] at h
      obtain ⟨_, rfl⟩ := Prod.mk.inj (Option.some.inj h)
      exact ⟨rfl, hempty, hpages, hnone, hinv, rfl, hslots, hpaths⟩
    · left
      have hfree := Nat.pos_of_ne_zero hempty
      obtain ⟨c, s1, hnext, hd⟩ := nextTable_absent hs.inv hp hlen habsent hfree
      rw [hnext] at h
      obtain ⟨rfl, rfl⟩ := Prod.mk.inj (Option.some.inj h)
      obtain ⟨j, pool'', hfirst, hj, _⟩ := pmmAllocate_first hfree
      rw [ha, (hs.inv.framed.address hj).1, PAGESIZE] at hfirst
      have hframe := (Prod.mk.inj (Option.some.inj hfirst)).1
      have hc : c = frameNumber s.pool j := by omega
      have hne : c ≠ 0 := hc ▸ number_ne_zero hs.inv.framed hs.base j
      exact ⟨c, rfl, hs.descends hd (nextTable_onward hnext).later hne, hd,
        Or.inr (Or.inr ⟨j, hj, hc⟩)⟩
  · left
    rw [and_present] at hpresent
    obtain ⟨c, s1, hnext, hd⟩ := nextTable_present hs.inv hp hpresent
    have hsome : follow (slot s.mem) r (p ++ [i]) ≠ none := by
      rw [hstep, slot, decode, if_neg hpresent]
      exact Option.some_ne_none _
    obtain rfl := hd.kept hsome
    rw [hnext] at h
    obtain ⟨rfl, rfl⟩ := Prod.mk.inj (Option.some.inj h)
    have hlength : (p ++ [i]).length ≤ 3 := by
      rw [List.length_append, List.length_singleton]
      exact hlen
    exact ⟨c, rfl, hs, hd, Or.inl ⟨p ++ [i], hlength, hd.reaches⟩⟩

theorem Grown.refl (hs : TreeInv s r) : Grown s s r :=
  ⟨hs, Later.refl _, fun _ _ => rfl, fun q _ hq hf => Or.inl ⟨q, hq, hf⟩⟩

theorem Grown.provided (h : Grown s s' r) (hf : Provided s' r f) : Provided s r f := by
  rcases hf with ⟨q, hq, hf⟩ | hzero | ⟨j, hj, hf⟩
  · exact h.tables q f hq hf
  · exact Or.inr (Or.inl hzero)
  · exact Or.inr (Or.inr ⟨j, h.later.free j hj, hf.trans (h.later.number j)⟩)

theorem Grown.trans (h : Grown s s' r) (h' : Grown s' s'' r) : Grown s s'' r where
  inv := h'.inv
  later := h.later.trans h'.later
  pages q hq := (h'.pages q hq).trans (h.pages q hq)
  tables q f hq hf := h.provided (h'.tables q f hq hf)

theorem grown_of_descends {c : Nat} (hd : Descends s s' r q c) (hlater : Later s.pool s'.pool)
    (hq : q.length ≤ 3) (hc : Provided s r c) : Grown s s' r := by
  refine ⟨hd.inv, hlater, fun q' hq' => hd.other q' (by omega) (by rintro rfl; omega), ?_⟩
  intro q' g hq' hg
  by_cases heq : q' = q
  · rw [heq, hd.reaches] at hg
    exact Option.some.inj hg ▸ hc
  · rw [hd.other q' (by omega) heq] at hg
    exact Or.inl ⟨q', hq', hg⟩

theorem grown_of_linksZero (hz : LinksZero s s' r f i q) (hq : q.length ≤ 3) : Grown s s' r := by
  refine ⟨hz.inv, hz.pool ▸ Later.refl _, fun q' hq' => ?_, fun q' g hq' hg => ?_⟩
  · rw [hz.paths q' (by omega), if_neg (by rintro rfl; omega)]
  · rw [hz.paths q' (by omega)] at hg
    split at hg
    · exact Or.inr (Or.inl (Option.some.inj hg).symm)
    · exact Or.inl ⟨q', hq', hg⟩

/-- A new table is empty. -/
theorem slot_new_table {c : Nat} (hp : follow (slot s.mem) r p = some f)
    (hnone : slot s.mem f i = none) (hd : Descends s s' r (p ++ [i]) c) (hlen : p.length < 3)
    (j : Fin 512) : slot s'.mem c j = none := by
  have hbelow := follow_below_empty hp hnone [j]
  have hother := hd.other (p ++ [i] ++ [j]) (by simp; omega) (by simp)
  rw [follow_step hd.reaches, hbelow] at hother
  exact hother

end Step

/-! ## The way to the last table -/

section Descent

variable {s s' : Vm} {r f t : Nat} {p q : Path} {v : Nat}

theorem descend_onward {table : Nat} {indices : List Nat}
    (h : descend s table indices = some (t, s')) : Onward s s' := by
  induction indices generalizing s table with
  | nil =>
    obtain ⟨_, rfl⟩ := Prod.mk.inj (Option.some.inj h)
    exact ⟨Later.refl _, rfl⟩
  | cons i indices ih =>
    obtain ⟨table', s1, hnext, hrest⟩ := descend_cons_inv h
    exact (nextTable_onward hnext).trans (ih hrest)

/-- After one table, the frames left and the tables missing have both gone down by one, or
neither has changed. -/
theorem needs_step {i : Fin 512} {c : Nat} {s1 : Vm} (hp : follow (slot s.mem) r p = some f)
    (hlen : p.length < 3) (hd : Descends s s1 r (p ++ [i]) c) :
    freeFrames s.pool + needs (slot s1.mem) c q = freeFrames s1.pool + needs (slot s.mem) f (i :: q) := by
  have hstep : follow (slot s.mem) r (p ++ [i]) = slot s.mem f i := follow_step hp
  have hframes := hd.frames
  rw [hstep] at hframes
  rw [needs]
  cases hslot : slot s.mem f i with
  | none =>
    rw [needs_empty (slot_new_table hp hslot hd hlen)]
    rw [hslot, if_pos rfl] at hframes
    simp only
    omega
  | some c' =>
    have hsame : s1 = s := hd.kept (by rw [hstep, hslot]; exact Option.some_ne_none _)
    subst hsame
    have hreaches := hd.reaches
    rw [hstep, hslot] at hreaches
    obtain rfl := Option.some.inj hreaches
    rfl

/-- With at most one frame missing, the way leads to a table. -/
theorem descend_grown (hs : Rooted s r) (hp : follow (slot s.mem) r p = some f)
    (hlen : p.length + q.length ≤ 3) (hneed : needs (slot s.mem) f q ≤ freeFrames s.pool + 1)
    (h : descend s (4096 * f) (q.map Fin.val) = some (t, s')) :
    ∃ c, t = 4096 * c ∧ Grown s s' r ∧ follow (slot s'.mem) r (p ++ q) = some c ∧
      (needs (slot s.mem) f q ≤ freeFrames s.pool → Rooted s' r) := by
  induction q generalizing s p f with
  | nil =>
    obtain ⟨rfl, rfl⟩ := Prod.mk.inj (Option.some.inj h)
    exact ⟨f, rfl, Grown.refl hs.inv, by rwa [List.append_nil], fun _ => hs⟩
  | cons i q ih =>
    rw [List.length_cons] at hlen
    rw [List.map_cons] at h
    obtain ⟨table, s1, hnext, hrest⟩ := descend_cons_inv h
    have hlength : (p ++ [i]).length = p.length + 1 := by simp
    rcases nextTable_cases hs hp (by omega) hnext with ⟨c, rfl, hs1, hd, hc⟩ | ⟨rfl, hz⟩
    · have hstep := needs_step (q := q) hp (by omega) hd
      obtain ⟨c', rfl, hgrown, hreaches, hrooted⟩ :=
        ih hs1 hd.reaches (by omega) (by omega) hrest
      have hfirst := grown_of_descends hd (nextTable_onward hnext).later (by omega) hc
      rw [List.append_assoc] at hreaches
      exact ⟨c', rfl, hfirst.trans hgrown, hreaches, fun hle => hrooted (by omega)⟩
    · have hempty := hz.empty
      rw [needs, hz.absent] at hneed ⊢
      simp only at hneed ⊢
      obtain rfl : q = [] := List.length_eq_zero_iff.mp (by omega)
      obtain ⟨rfl, rfl⟩ := Prod.mk.inj (Option.some.inj hrest)
      refine ⟨0, rfl, grown_of_linksZero hz (by omega), ?_, fun hle => ?_⟩
      · rw [hz.paths _ (by omega), if_pos rfl]
      · rw [hempty] at hle
        exact absurd hle (by simp)

/-- With a frame missing, the way leaves an empty pool, which the bitmap covers. -/
theorem descend_empties (hs : Rooted s r) (hp : follow (slot s.mem) r p = some f)
    (hlen : p.length + q.length ≤ 3) (hneed : freeFrames s.pool < needs (slot s.mem) f q)
    (h : descend s (4096 * f) (q.map Fin.val) = some (t, s')) :
    freeFrames s'.pool = 0 ∧ s.pool.pages ≤ 100 := by
  induction q generalizing s p f with
  | nil => exact absurd hneed (Nat.not_lt_zero _)
  | cons i q ih =>
    rw [List.length_cons] at hlen
    rw [List.map_cons] at h
    obtain ⟨table, s1, hnext, hrest⟩ := descend_cons_inv h
    have hlength : (p ++ [i]).length = p.length + 1 := by simp
    rcases nextTable_cases hs hp (by omega) hnext with ⟨c, rfl, hs1, hd, _⟩ | ⟨rfl, hz⟩
    · have hstep := needs_step (q := q) hp (by omega) hd
      have hrest' := ih hs1 hd.reaches (by omega) (by omega) hrest
      rwa [(nextTable_onward hnext).later.pages] at hrest'
    · exact ⟨(descend_onward hrest).later.empty (hz.pool ▸ hz.empty), hz.covered⟩

end Descent

/-! ## Page 0 as a table on the way -/

/-- Page 0 is the table at `q` and at no path before. -/
structure ZeroAt (m : Memory) (r : Nat) (q : Path) : Prop where
  reaches : follow (slot m) r q = some 0
  before : ∀ p, p <+: q → p ≠ q → follow (slot m) r p ≠ some 0

/-- Only slots of page 0 have changed, and these hold page 0 or the frame `g`. -/
structure ZeroPage (m m' : Memory) (g : Nat) : Prop where
  slots : ∀ i c, slot m' 0 i = some c → c = 0 ∨ c = g
  other : ∀ f, f ≠ 0 → slot m' f = slot m f

section ZeroTable

variable {s s' : Vm} {m m' : Memory} {r f t g v p : Nat} {q q' : Path}

theorem ZeroAt.keep (h : ZeroAt m r q) (hz : ZeroPage m m' g) : follow (slot m') r q = some 0 :=
  (follow_off hz.other h.before).trans h.reaches

/-- Below page 0 every table is page 0 again. -/
theorem descend_zero (hempty : freeFrames s.pool = 0) (hz : ZeroPage m s.mem 0)
    (h : descend s 0 (q.map Fin.val) = some (t, s')) : t = 0 ∧ ZeroPage m s'.mem 0 := by
  induction q generalizing s with
  | nil =>
    obtain ⟨rfl, rfl⟩ := Prod.mk.inj (Option.some.inj h)
    exact ⟨rfl, hz⟩
  | cons i q ih =>
    rw [List.map_cons] at h
    obtain ⟨table, s1, hnext, hrest⟩ := descend_cons_inv h
    have hempty1 := (nextTable_onward hnext).later.empty hempty
    rcases nextTable_inv hnext with ⟨_, pool, ha, rfl⟩ | ⟨hpresent, rfl, rfl⟩
    · obtain ⟨rfl, _⟩ := pmmAllocate_empty hempty ha
      have hlinked := slot_linked s.mem 0 i (c := 0) (by decide)
      refine ih hempty1 ⟨fun j c hc => ?_, fun f hf => ?_⟩ hrest
      · rw [hlinked, link, setSlot] at hc
        split at hc
        · exact Or.inl (Option.some.inj hc).symm
        · rw [clear, if_pos rfl] at hc
          cases hc
      · rw [← hz.other f hf, hlinked]
        funext j
        rw [link, setSlot, if_neg (fun h => hf h.1), clear, if_neg hf]
    · rw [and_present] at hpresent
      have hslot : slot s1.mem 0 i = some (entry s1.mem 0 i / 4096 % 2 ^ 40) := by
        rw [slot, decode, if_neg hpresent]
      have htarget : entry s1.mem 0 i &&& ADDRESS_MASK = 0 := by
        rw [and_address_mask]
        have := hz.slots i _ hslot
        omega
      rw [htarget] at hrest
      exact ih hempty1 hz hrest

/-- With more than one frame missing, page 0 becomes a table before the last one. -/
theorem descend_zero_table {p : Path} (hs : Rooted s r) (hp : follow (slot s.mem) r p = some f)
    (hlen : p.length + q.length ≤ 3) (hneed : freeFrames s.pool + 2 ≤ needs (slot s.mem) f q)
    (h : descend s (4096 * f) (q.map Fin.val) = some (t, s')) :
    t = 0 ∧ ∃ m q' rest, p ++ q = q' ++ rest ∧ rest ≠ [] ∧ ZeroAt m r q' ∧ ZeroPage m s'.mem 0 := by
  induction q generalizing s p f with
  | nil => exact absurd hneed (by rw [needs]; omega)
  | cons i q ih =>
    rw [List.length_cons] at hlen
    rw [List.map_cons] at h
    obtain ⟨table, s1, hnext, hrest⟩ := descend_cons_inv h
    have hlength : (p ++ [i]).length = p.length + 1 := by simp
    rcases nextTable_cases hs hp (by omega) hnext with ⟨c, rfl, hs1, hd, _⟩ | ⟨rfl, hz⟩
    · have hstep := needs_step (q := q) hp (by omega) hd
      have hrest' := ih hs1 hd.reaches (by omega) (by omega) hrest
      rwa [List.append_assoc] at hrest'
    · have hf : f ≠ 0 := fun hzero => hs.zero p (by omega) (hzero ▸ hp)
      have hfresh : ZeroPage s1.mem s1.mem 0 := by
        refine ⟨fun j c hc => ?_, fun _ _ => rfl⟩
        rw [hz.slots, link, setSlot, if_neg (fun h => hf h.1.symm), clear, if_pos rfl] at hc
        cases hc
      obtain ⟨rfl, hpage⟩ := descend_zero (hz.pool ▸ hz.empty) hfresh hrest
      refine ⟨rfl, s1.mem, p ++ [i], q, (List.append_cons p i q), ?_, ⟨?_, ?_⟩, hpage⟩
      · rintro rfl
        rw [needs, hz.absent] at hneed
        simp at hneed
      · rw [hz.paths _ (by omega), if_pos rfl]
      · intro p' hpre hne
        have hle := hpre.length_le
        rw [hz.paths p' (by omega), if_neg hne]
        exact hs.zero p' (by omega)

/-- The leaf that `map_page` puts in page 0. -/
theorem zeroPage_setLeaf (v p : Nat) (hz : ZeroPage m s.mem 0) :
    ZeroPage m (setLeaf s 0 v p).mem (p / 4096 % 2 ^ 40) := by
  rw [setLeaf]
  split
  · have hleaf : slot (setEntry s.mem 0 (ptIndex v) (p ||| PAT ||| PRESENT ||| WRITABLE)) =
        setSlot (slot s.mem) 0 ⟨ptIndex v, ptIndex_lt v⟩ (some (p / 4096 % 2 ^ 40)) := by
      have hdecode : decode (p ||| PAT ||| PRESENT ||| WRITABLE) = some (p / 4096 % 2 ^ 40) := by
        rw [Nat.or_assoc, Nat.or_assoc, decode_flags _ _ (by decide) (by decide)]
      rw [← hdecode]
      exact slot_setEntry s.mem 0 ⟨ptIndex v, ptIndex_lt v⟩ _
    refine ⟨fun j c hc => ?_, fun f hf => ?_⟩
    · rw [hleaf, setSlot] at hc
      split at hc
      · exact Or.inr (Option.some.inj hc).symm
      · exact Or.inl (by simpa using hz.slots j c hc)
    · rw [← hz.other f hf, hleaf]
      funext j
      rw [setSlot, if_neg (fun h => hf h.1)]
  · exact ⟨fun j c hc => Or.inl (by simpa using hz.slots j c hc), hz.other⟩

end ZeroTable

/-! ## `map_page` -/

section Call

variable {s s' : Vm} {r v p : Nat}

theorem lastTable_eq (hs : TreeInv s r) (v : Nat) :
    lastTable s v = descend s (4096 * r) ((level3 v).map Fin.val) := by
  rw [lastTable, hs.root]
  rfl

theorem setLeaf_onward (s : Vm) (pt v p : Nat) : Onward s (setLeaf s pt v p) := by
  rw [setLeaf]
  split <;> exact ⟨Later.refl _, rfl⟩

theorem mapPage_onward (h : mapPage s v p = some s') : Onward s s' := by
  obtain ⟨pt, t, hlast, rfl⟩ := mapPage_inv h
  exact (descend_onward hlast).trans (setLeaf_onward t pt v p)

/-- The same state with a larger pool. -/
def resize (s : Vm) (n : Nat) : Vm := { s with pool := s.pool.resize n }

@[simp] theorem resize_mem (s : Vm) (n : Nat) : (resize s n).mem = s.mem := rfl

theorem Onward.some_left (h : Onward s s') (hleft : 0 < freeFrames s'.pool) : 0 < freeFrames s.pool :=
  Nat.pos_of_ne_zero fun hempty => Nat.ne_of_gt hleft (h.later.empty hempty)

/-- A block that leaves a frame does the same with more of them. -/
theorem nextTable_resize {table i t n : Nat} (hn : s.pool.pages ≤ n) (hleft : 0 < freeFrames s'.pool)
    (h : nextTable s table i = some (t, s')) :
    nextTable (resize s n) table i = some (t, resize s' n) := by
  have hfree := (nextTable_onward h).some_left hleft
  rcases nextTable_inv h with ⟨habsent, pool, ha, rfl⟩ | ⟨hpresent, rfl, rfl⟩
  · have hwide : pmmAllocate (resize s n).pool = some (t, pool.resize n) := pmmAllocate_resize hfree hn ha
    rw [nextTable, resize_mem, if_pos habsent, hwide]
    rfl
  · rw [nextTable, resize_mem, if_neg hpresent]

theorem descend_resize {table t n : Nat} {indices : List Nat} (hn : s.pool.pages ≤ n)
    (hleft : 0 < freeFrames s'.pool) (h : descend s table indices = some (t, s')) :
    descend (resize s n) table indices = some (t, resize s' n) := by
  induction indices generalizing s table with
  | nil =>
    obtain ⟨rfl, rfl⟩ := Prod.mk.inj (Option.some.inj h)
    rfl
  | cons i indices ih =>
    obtain ⟨table', s1, hnext, hrest⟩ := descend_cons_inv h
    have hwide := nextTable_resize hn ((descend_onward hrest).some_left hleft) hnext
    rw [descend, hwide]
    exact ih ((nextTable_onward hnext).later.pages.trans_le hn) hrest

theorem setLeaf_resize (s : Vm) (pt v p n : Nat) :
    setLeaf (resize s n) pt v p = resize (setLeaf s pt v p) n := by
  rw [setLeaf, setLeaf, resize_mem]
  split <;> rfl

theorem mapPage_resize {n : Nat} (hn : s.pool.pages ≤ n) (hleft : 0 < freeFrames s'.pool)
    (h : mapPage s v p = some s') : mapPage (resize s n) v p = some (resize s' n) := by
  obtain ⟨pt, t, hlast, rfl⟩ := mapPage_inv h
  have hwide : lastTable (resize s n) v = some (pt, resize t n) :=
    descend_resize hn ((setLeaf_onward t pt v p).some_left hleft) hlast
  rw [mapPage_eq, hwide, Option.map_some, setLeaf_resize]

/-- A call with at most one frame missing maps its page and no other. -/
structure MapsPage (s s' : Vm) (r v p : Nat) : Prop where
  root : s'.pml = 4096 * r
  page : follow (slot s'.mem) r (path v) =
    (follow (slot s.mem) r (path v)).or (some (p / 4096 % 2 ^ 40))
  other : ∀ v', path v' ≠ path v →
    follow (slot s'.mem) r (path v') = follow (slot s.mem) r (path v')
  tables : ∀ (q : Path) f, q.length ≤ 3 → follow (slot s'.mem) r q = some f → Provided s r f
  rooted : tablesNeeded s.mem s.pml v ≤ freeFrames s.pool → Rooted s' r

theorem mapPage_mapsPage (hs : Rooted s r)
    (hneed : tablesNeeded s.mem s.pml v ≤ freeFrames s.pool + 1) (h : mapPage s v p = some s') :
    MapsPage s s' r v p := by
  obtain ⟨pt, s1, hlast, rfl⟩ := mapPage_inv h
  rw [lastTable_eq hs.inv] at hlast
  rw [hs.inv.root, tablesNeeded_eq_needs] at hneed
  obtain ⟨c, rfl, hgrown, hreaches, hrooted⟩ :=
    descend_grown (p := []) hs rfl (by simp) hneed hlast
  have hset := setLeaf_spec p hgrown.inv hreaches
  have hkeep : ∀ v', follow (slot s1.mem) r (path v') = follow (slot s.mem) r (path v') :=
    fun v' => hgrown.pages _ rfl
  refine ⟨hset.inv.root, ?_, fun v' hne => ?_, fun q f hq hf => ?_, fun hle => ?_⟩
  · rw [hset.page, hkeep]
  · rw [hset.other _ le_rfl hne, hkeep]
  · rw [hset.other q (by omega) (by rintro rfl; simp [path] at hq)] at hf
    exact hgrown.tables q f hq hf
  · rw [hs.inv.root, tablesNeeded_eq_needs] at hle
    have hrooted' := hrooted hle
    refine ⟨hset.inv, hset.pool ▸ hrooted'.base, fun q hq => ?_⟩
    rw [hset.other q (by omega) (by rintro rfl; simp [path] at hq)]
    exact hrooted'.zero q hq

theorem mapPage_empties (hs : Rooted s r)
    (hneed : freeFrames s.pool < tablesNeeded s.mem s.pml v) (h : mapPage s v p = some s') :
    freeFrames s'.pool = 0 ∧ s.pool.pages ≤ 100 := by
  obtain ⟨pt, s1, hlast, rfl⟩ := mapPage_inv h
  rw [lastTable_eq hs.inv] at hlast
  rw [hs.inv.root, tablesNeeded_eq_needs] at hneed
  obtain ⟨hempty, hpages⟩ := descend_empties (p := []) hs rfl (by simp) hneed hlast
  exact ⟨(setLeaf_onward s1 pt v p).later.empty hempty, hpages⟩

/-- With more than one frame missing, a page that is mapped to `p` afterwards has made the
frame of `p` a table. -/
theorem mapPage_zero_table (hs : Rooted s r)
    (hneed : freeFrames s.pool + 2 ≤ tablesNeeded s.mem s.pml v) (h : mapPage s v p = some s')
    (hp : p / 4096 % 2 ^ 40 ≠ 0)
    (hmapped : follow (slot s'.mem) r (path v) = some (p / 4096 % 2 ^ 40)) :
    ∃ q : Path, q.length ≤ 3 ∧ follow (slot s'.mem) r q = some (p / 4096 % 2 ^ 40) := by
  obtain ⟨pt, s1, hlast, rfl⟩ := mapPage_inv h
  rw [lastTable_eq hs.inv] at hlast
  rw [hs.inv.root, tablesNeeded_eq_needs] at hneed
  obtain ⟨rfl, m, q, rest, hpath, hrest, hat, hpage⟩ :=
    descend_zero_table (p := []) hs rfl (by simp) hneed hlast
  have hleaf := zeroPage_setLeaf v p hpage
  have hreaches := hat.keep hleaf
  rw [path_eq, ← List.nil_append (level3 v), hpath, List.append_assoc, follow_append, hreaches,
    Option.bind_some] at hmapped
  obtain ⟨i, hi⟩ := slot_of_follow hleaf.slots hp hmapped
  refine ⟨q ++ [i], ?_, ?_⟩
  · have hlength := congrArg List.length hpath
    have hpos := List.length_pos_iff.mpr hrest
    simp only [List.nil_append, level3_length, List.length_append] at hlength
    rw [List.length_append, List.length_singleton]
    omega
  · rw [follow_step hreaches]
    exact hi

/-- While the bitmap covers the pool, no call reads past it. -/
theorem descend_covered (table : Nat) (indices : List Nat) (h : s.pool.pages ≤ 100) :
    ∃ t s', descend s table indices = some (t, s') := by
  induction indices generalizing s table with
  | nil => exact ⟨table, s, rfl⟩
  | cons i indices ih =>
    have hnext : ∃ t s1, nextTable s table i = some (t, s1) := by
      rw [nextTable]
      split
      · obtain ⟨frame, pool, ha⟩ := pmmAllocate_isSome h
        rw [ha]
        exact ⟨_, _, rfl⟩
      · exact ⟨_, _, rfl⟩
    obtain ⟨t, s1, hnext⟩ := hnext
    obtain ⟨t', s', hrest⟩ := ih (s := s1) t ((nextTable_onward hnext).later.pages ▸ h)
    refine ⟨t', s', ?_⟩
    rw [descend, hnext]
    exact hrest

theorem mapPage_covered (v p : Nat) (h : s.pool.pages ≤ 100) : ∃ s', mapPage s v p = some s' := by
  obtain ⟨t, s1, hlast⟩ := descend_covered s.pml (tableIndices v) h
  exact ⟨setLeaf s1 t v p, by rw [mapPage_eq, lastTable, hlast, Option.map_some]⟩

/-! ## The states -/

theorem rooted_zeroed {pool pool' : Pool} {frame : Nat} (m : Memory) (hf : Framed pool)
    (hfree : 0 < freeFrames pool) (hbase : pool.base = 0 → pool.pages = 0)
    (ha : pmmAllocate pool = some (frame, pool')) :
    ∃ r, Rooted ⟨memset m frame 0 0x1000, pool', frame⟩ r := by
  obtain ⟨j, _, hfirst, hj, _⟩ := pmmAllocate_first hfree
  obtain ⟨r, _, hzeroed, hinv, _⟩ := treeInv_zeroed m hf hfree
  rw [ha, Option.some.injEq, Prod.mk.injEq] at hfirst hzeroed
  obtain ⟨rfl, rfl⟩ := hzeroed
  have hne : pool.base ≠ 0 := fun hzero => absurd hj.1 (by rw [hbase hzero]; exact Nat.not_lt_zero j)
  have hr : r ≠ 0 := by
    have hal := hf.aligned
    have haddress := hfirst.1.trans (hf.address hj).1
    simp only [PAGESIZE, frameNumber] at hal haddress
    omega
  have hslots : slot (memset m (4096 * r) 0 0x1000) = clear (slot m) r := by
    rw [memset_eq_fill, slot_fill]
  refine ⟨r, hinv, (pmmAllocate_later ha).base ▸ hne, fun q hq => ?_⟩
  simp only [hslots]
  cases q with
  | nil => exact fun h => hr (Option.some.inj h)
  | cons i q => simp [follow_clear_root]

theorem Rooted.allocated {frame : Nat} {pool' : Pool} (hs : Rooted s r)
    (ha : pmmAllocate s.pool = some (frame, pool')) : Rooted { s with pool := pool' } r :=
  ⟨treeInv_allocated hs.inv ha, (pmmAllocate_later ha).base ▸ hs.base, hs.zero⟩

theorem Rooted.mapped (hs : Rooted s r) (h : mapPage s v p = some s') :
    freeFrames s'.pool = 0 ∨ Rooted s' r := by
  rcases Nat.lt_or_ge (freeFrames s.pool) (tablesNeeded s.mem s.pml v) with hlt | hle
  · exact Or.inl (mapPage_empties hs hlt h).1
  · exact Or.inr ((mapPage_mapsPage hs (by omega) h).rooted hle)

/-- Stores that miss the tables change no path. -/
theorem follow_stored {m : Memory} (hs : TreeInv s r)
    (hkeep : ∀ (q : Path) t, q.length ≤ 3 → follow (tables s.mem) s.pml q = some t →
      ∀ i : Fin 512, entry m t i = entry s.mem t i) {q : Path} (hq : q.length ≤ 4) :
    follow (slot m) r q = follow (slot s.mem) r q := by
  induction q using List.reverseRecOn with
  | nil => rw [follow_nil, follow_nil]
  | append_singleton q i ih =>
    rw [List.length_append, List.length_singleton] at hq
    rw [follow_snoc, follow_snoc, ih (by omega)]
    cases hf : follow (slot s.mem) r q with
    | none => rw [Option.bind_none, Option.bind_none]
    | some f =>
      have htable : follow (tables s.mem) s.pml q = some (4096 * f) := by
        rw [hs.root, follow_tables, hf, Option.map_some]
      have hentry := hkeep q (4096 * f) (by omega) htable i
      rw [Option.bind_some, Option.bind_some, slot, slot, hentry]

theorem Rooted.stored {m : Memory} (hs : Rooted s r)
    (hkeep : ∀ (q : Path) t, q.length ≤ 3 → follow (tables s.mem) s.pml q = some t →
      ∀ i : Fin 512, entry m t i = entry s.mem t i) : Rooted { s with mem := m } r := by
  have hsame : ∀ q : Path, q.length ≤ 3 → follow (slot m) r q = follow (slot s.mem) r q :=
    fun q hq => follow_stored hs.inv hkeep (by omega)
  refine ⟨⟨hs.inv.root, hs.inv.framed, fun q q' t hq hq' hf hf' => ?_, fun q f hq hf => ?_⟩,
    hs.base, fun q hq => ?_⟩
  · exact hs.inv.tree q q' t hq hq' ((hsame q hq).symm.trans hf) ((hsame q' hq').symm.trans hf')
  · exact hs.inv.taken q f hq ((hsame q hq).symm.trans hf)
  · exact fun hzero => hs.zero q hq ((hsame q hq).symm.trans hzero)

/-- In every state the tables are as they should be, or no frame is left. -/
theorem Booted.rooted (hs : Booted s) : freeFrames s.pool = 0 ∨ ∃ r, Rooted s r := by
  induction hs with
  | @zeroed m pool pool' frame hf hbase ha =>
    by_cases hempty : freeFrames pool = 0
    · exact Or.inl ((pmmAllocate_later ha).empty hempty)
    · have hfree := Nat.pos_of_ne_zero hempty
      exact Or.inr (rooted_zeroed m hf hfree hbase ha)
  | @mapped s s' v p _ hm ih =>
    rcases ih with hempty | ⟨r, hr⟩
    · exact Or.inl ((mapPage_onward hm).later.empty hempty)
    · exact (hr.mapped hm).imp_right (fun h => ⟨r, h⟩)
  | allocated _ ha ih =>
    rcases ih with hempty | ⟨r, hr⟩
    · exact Or.inl ((pmmAllocate_later ha).empty hempty)
    · exact Or.inr ⟨r, hr.allocated ha⟩
  | stored _ hkeep ih =>
    rcases ih with hempty | ⟨r, hr⟩
    · exact Or.inl hempty
    · exact Or.inr ⟨r, hr.stored hkeep⟩

end Call

end PaskakasaOS.Kernel.Memory.LastFrames
