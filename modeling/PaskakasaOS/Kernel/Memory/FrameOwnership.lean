import PaskakasaOS.Kernel.Memory.InitPaging
import PaskakasaOS.Kernel.Memory.LastFrames

/-!
# The page tables and the other users of the frame pool

`map_page` takes its tables from the pool that serves the font buffer and the heap as
well. It stores only to frames that are tables afterwards, so the users do not disturb
each other: translations depend on the calls of `map_page` alone, and the bytes of every
other frame on the stores of its owner alone, in whatever order they come.
-/
namespace PaskakasaOS.Kernel.Memory.FrameOwnership

open Lib.ByteMemory Lib.TableTree Lib.Runs
open Utils.Mem (memset memset_eq_fill)
open Pmm Vmm VmmTree MapPage AddressSpace PageRuns InitPaging
open LastFrames (needs needs_step tablesNeeded_eq_needs descend_onward nextTable_onward lastTable_eq
  mapPage_onward resize mapPage_resize)

/-! ## What one call stores to -/

/-- From `s` to `s'` tables were added from the pool, and only tables were stored to. -/
structure Confined (s s' : Vm) (r : Nat) : Prop where
  inv : TreeInv s' r
  later : Later s.pool s'.pool
  kept : ∀ (q : Path) f, q.length ≤ 3 → follow (slot s.mem) r q = some f →
    follow (slot s'.mem) r q = some f
  tables : ∀ f, Fresh (slot s.mem) r 3 f → (∀ j, IsFree s.pool j → f ≠ frameNumber s.pool j) →
    Fresh (slot s'.mem) r 3 f
  bytes : ∀ b, Fresh (slot s'.mem) r 3 (b / 4096) → s'.mem b = s.mem b

section Confined

variable {s s' s'' : Vm} {r f t v p : Nat} {q q' : Path} {i : Fin 512}

theorem Confined.refl (hs : TreeInv s r) : Confined s s r :=
  ⟨hs, Later.refl _, fun _ _ _ h => h, fun _ h _ => h, fun _ _ => rfl⟩

theorem Confined.fresh (h : Confined s s' r) (hf : Fresh (slot s'.mem) r 3 f) :
    Fresh (slot s.mem) r 3 f :=
  fun q hq hqf => hf q hq (h.kept q f hq hqf)

theorem Confined.trans (h : Confined s s' r) (h' : Confined s' s'' r) : Confined s s'' r where
  inv := h'.inv
  later := h.later.trans h'.later
  kept q f hq hf := h'.kept q f hq (h.kept q f hq hf)
  tables f hf hfree := by
    refine h'.tables f (h.tables f hf hfree) fun j hj => ?_
    rw [h.later.number]
    exact hfree j (h.later.free j hj)
  bytes b hb := (h'.bytes b hb).trans (h.bytes b (h'.fresh hb))

/-- A new table is a frame that was free, and the entry for it lies in a table. -/
theorem nextTable_confined (hs : TreeInv s r) (hp : follow (slot s.mem) r q = some f)
    (hlen : q.length < 3) (hfree : slot s.mem f i = none → 0 < freeFrames s.pool)
    (h : nextTable s (4096 * f) i = some (t, s')) :
    ∃ c, t = 4096 * c ∧ Descends s s' r (q ++ [i]) c ∧ Confined s s' r := by
  obtain ⟨c, s1, hnext, hd⟩ := nextTable_spec hs hp hlen hfree
  rw [h] at hnext
  obtain ⟨rfl, rfl⟩ := Prod.mk.inj (Option.some.inj hnext)
  refine ⟨c, rfl, hd, ?_⟩
  have hstep : follow (slot s.mem) r (q ++ [i]) = slot s.mem f i := follow_step hp
  have hlast : (q ++ [i]).length ≤ 3 := by
    rw [List.length_append, List.length_singleton]
    exact hlen
  rcases nextTable_inv h with ⟨habsent, pool, ha, heq⟩ | ⟨hpresent, _, rfl⟩
  · rw [and_present] at habsent
    have hnone : slot s.mem f i = none := by rw [slot, decode, if_pos habsent]
    have hcount := hd.frames
    rw [hstep, if_pos hnone] at hcount
    obtain ⟨j, hj, hframe⟩ : ∃ j, IsFree s.pool j ∧ c = frameNumber s.pool j := by
      rcases pmmAllocate_cases ha with ⟨_, hsame⟩ | ⟨j, hj, haddr, _⟩
      · have hpool : s'.pool = s.pool := by rw [heq, ← hsame]
        rw [hpool] at hcount
        omega
      · rw [(hs.framed.address hj).1, PAGESIZE] at haddr
        exact ⟨j, hj, by omega⟩
    have hother : ∀ q' : Path, q'.length ≤ 3 → q' ≠ q ++ [i] →
        follow (slot s'.mem) r q' = follow (slot s.mem) r q' :=
      fun q' hq' hne => hd.other q' (by omega) hne
    refine ⟨hd.inv, (nextTable_onward h).later, fun q' g hq' hg => ?_, fun g hg hgfree q' hq' => ?_,
      fun b hb => ?_⟩
    · have hne : q' ≠ q ++ [i] := by
        rintro rfl
        rw [hstep, hnone] at hg
        cases hg
      rw [hother q' hq' hne, hg]
    · by_cases heq' : q' = q ++ [i]
      · rw [heq', hd.reaches, hframe]
        exact fun hc => hgfree j hj (Option.some.inj hc).symm
      · rw [hother q' hq' heq']
        exact hg q' hq'
    · have hne : q ≠ q ++ [i] := by simp
      have hparent : b / 4096 ≠ f := by
        intro hbf
        refine hb q (by omega) ?_
        rw [hother q (by omega) hne, hp, hbf]
      have htable : b / 4096 ≠ c := fun hbc => hb _ hlast (hbc ▸ hd.reaches)
      have hi := i.isLt
      rw [heq]
      show setEntry (memset s.mem (4096 * c) 0 0x1000) (4096 * f) i _ b = s.mem b
      rw [setEntry, writeLE_outside (by omega), memset_eq_fill, fill_outside 0 (by omega)]
  · exact Confined.refl hs

/-- The way to the last table, with a frame for each table that is missing on it. -/
theorem descend_confined (hs : TreeInv s r) (hp : follow (slot s.mem) r q = some f)
    (hlen : q.length + q'.length ≤ 3) (hneed : needs (slot s.mem) f q' ≤ freeFrames s.pool)
    (h : descend s (4096 * f) (q'.map Fin.val) = some (t, s')) :
    ∃ c, t = 4096 * c ∧ follow (slot s'.mem) r (q ++ q') = some c ∧ Confined s s' r := by
  induction q' generalizing s q f with
  | nil =>
    obtain ⟨rfl, rfl⟩ := Prod.mk.inj (Option.some.inj h)
    exact ⟨f, rfl, by rwa [List.append_nil], Confined.refl hs⟩
  | cons i q' ih =>
    rw [List.length_cons] at hlen
    rw [List.map_cons] at h
    obtain ⟨table, s1, hnext, hrest⟩ := descend_cons_inv h
    have hfree : slot s.mem f i = none → 0 < freeFrames s.pool := by
      intro hnone
      rw [needs, hnone] at hneed
      exact Nat.lt_of_lt_of_le (Nat.succ_pos q'.length) hneed
    obtain ⟨c, rfl, hd, hfirst⟩ := nextTable_confined hs hp (by omega) hfree hnext
    have hstep := needs_step (q := q') hp (by omega) hd
    have hlength : (q ++ [i]).length = q.length + 1 := by simp
    obtain ⟨c', rfl, hreaches, hlast⟩ := ih hd.inv hd.reaches (by omega) (by omega) hrest
    rw [List.append_assoc] at hreaches
    exact ⟨c', rfl, hreaches, hfirst.trans hlast⟩

theorem setLeaf_confined (hs : TreeInv s r) (ht : follow (slot s.mem) r (level3 v) = some t)
    (p : Nat) : Confined s (setLeaf s (4096 * t) v p) r := by
  have hleaf := setLeaf_spec p hs ht
  have hother : ∀ q : Path, q.length ≤ 3 →
      follow (slot (setLeaf s (4096 * t) v p).mem) r q = follow (slot s.mem) r q := by
    intro q hq
    refine hleaf.other q (by omega) ?_
    rintro rfl
    simp [path] at hq
  refine ⟨hleaf.inv, hleaf.pool ▸ Later.refl _, fun q f hq hf => (hother q hq).trans hf,
    fun f hf _ q hq => ?_, fun b hb => ?_⟩
  · rw [hother q hq]
    exact hf q hq
  · have htable : b / 4096 ≠ t := by
      intro hbt
      refine hb (level3 v) (by simp) ?_
      rw [hother _ (by simp), ht, hbt]
    have hi := ptIndex_lt v
    rw [setLeaf]
    split
    · exact writeLE_outside (by omega)
    · rfl

/-- `map_page` stores only to frames that are tables afterwards. -/
theorem mapPage_confined (hs : TreeInv s r) (hfree : tablesNeeded s.mem s.pml v ≤ freeFrames s.pool)
    (h : mapPage s v p = some s') : Confined s s' r := by
  obtain ⟨pt, s3, hlast, rfl⟩ := mapPage_inv h
  rw [hs.root, tablesNeeded_eq_needs] at hfree
  rw [lastTable_eq hs] at hlast
  obtain ⟨c, rfl, hreaches, hway⟩ := descend_confined hs (q := []) rfl (by simp) hfree hlast
  exact hway.trans (setLeaf_confined hway.inv hreaches p)

end Confined

/-! ## The users of the pool -/

/-- The tables, and the frames that other users have been handed. -/
structure World where
  vm : Vm
  owned : List Nat

inductive Event
  | map (v p : Nat)
  | take
  | store (b : Nat) (x : UInt8)

/-- A call of `map_page`, a call of `pmm_allocate` by another user, or a store. -/
def step (w : World) : Event → Option World
  | .map v p => do
    let vm ← mapPage w.vm v p
    some { w with vm := vm }
  | .take => do
    let (frame, pool) ← pmmAllocate w.vm.pool
    some { vm := { w.vm with pool := pool }, owned := frame / 0x1000 :: w.owned }
  | .store b x => some { w with vm := { w.vm with mem := Function.update w.vm.mem b x } }

/-- Users store to their frames only. -/
def Permitted (w : World) : Event → Prop
  | .map _ _ => True
  | .take => True
  | .store b _ => b / 0x1000 ∈ w.owned

def mapCalls : List Event → List Call
  | [] => []
  | .map v p :: es => (v, p) :: mapCalls es
  | .take :: es => mapCalls es
  | .store _ _ :: es => mapCalls es

def takes : List Event → Nat
  | [] => 0
  | .map _ _ :: es => takes es
  | .take :: es => takes es + 1
  | .store _ _ :: es => takes es

/-- The memory as the stores alone would leave it. -/
def stored (m : Memory) : List Event → Memory
  | [] => m
  | .map _ _ :: es => stored m es
  | .take :: es => stored m es
  | .store b x :: es => stored (Function.update m b x) es

/-- The tables are those of `S`, and the frames of the other users, also those they may yet
be handed, hold the bytes of `m`. -/
structure Serves (m : Memory) (w : World) (r : Nat) (S : Finset Path) (F : Nat) : Prop where
  inv : TreeInv w.vm r
  counted : Counted w.vm r S F
  fresh : ∀ g ∈ w.owned, Fresh (slot w.vm.mem) r 3 g
  taken : ∀ g ∈ w.owned, ∀ j, IsFree w.vm.pool j → g ≠ frameNumber w.vm.pool j
  distinct : w.owned.Nodup
  owned : ∀ b, b / 0x1000 ∈ w.owned → w.vm.mem b = m b
  free : ∀ b j, IsFree w.vm.pool j → b / 0x1000 = frameNumber w.vm.pool j → w.vm.mem b = m b

section Steps

variable {m : Memory} {w w' : World} {r F v p b : Nat} {S : Finset Path} {x : UInt8}

theorem step_map (hw : Serves m w r S F) (hcard : (S ∪ levels v).card ≤ F) :
    ∃ w', step w (.map v p) = some w' ∧ Serves m w' r (S ∪ levels v) F ∧
      ∀ a, follow (slot w'.vm.mem) r (path a) =
        (follow (slot w.vm.mem) r (path a)).or (lookup [(v, p)] a) := by
  obtain ⟨s', hmap, hm, hcounted⟩ := mapCall_counted (v, p) hw.inv hw.counted hcard
  have hframes : freeFrames s'.pool + tablesNeeded w.vm.mem w.vm.pml v = freeFrames w.vm.pool :=
    hm.frames
  have hconf : Confined w.vm s' r := mapPage_confined (v := v) hw.inv (by omega) hmap
  have hfresh : ∀ g ∈ w.owned, Fresh (slot s'.mem) r 3 g :=
    fun g hg => hconf.tables g (hw.fresh g hg) (hw.taken g hg)
  have hlater := hconf.later
  refine ⟨{ w with vm := s' }, ?_, ⟨hconf.inv, hcounted, hfresh, fun g hg j hj => ?_, hw.distinct,
    fun b hb => ?_, fun b j hj hb => ?_⟩, fun a => ?_⟩
  · show (mapCall w.vm (v, p)).bind _ = _
    rw [hmap, Option.bind_some]
  · rw [hlater.number]
    exact hw.taken g hg j (hlater.free j hj)
  · exact (hconf.bytes b (hfresh _ hb)).trans (hw.owned b hb)
  · have hnone : Fresh (slot s'.mem) r 3 (b / 4096) :=
      fun q hq hqb => hconf.inv.taken q _ hq hqb j hj hb
    rw [hlater.number] at hb
    exact (hconf.bytes b hnone).trans (hw.free b j (hlater.free j hj) hb)
  · have hnil : lookup [] a = none := rfl
    rw [lookup_cons, hnil]
    by_cases ha : path v = path a
    · rw [if_pos ha, ← ha]
      exact hm.page
    · rw [if_neg ha, Option.or_none]
      exact hm.other a (Ne.symm ha)

theorem step_take (hw : Serves m w r S F) (hcard : S.card + 1 ≤ F) :
    ∃ w', step w .take = some w' ∧ Serves m w' r S (F - 1) ∧ w'.vm.mem = w.vm.mem := by
  have hcount := hw.counted.frames
  obtain ⟨j, pool', ha, hj, hmark, hleft, _⟩ := pmmAllocate_of_free (show 0 < freeFrames w.vm.pool by omega)
  have hlater := pmmAllocate_later ha
  rw [(hw.inv.framed.address hj).1] at ha
  have hframe : PAGESIZE * frameNumber w.vm.pool j / 0x1000 = frameNumber w.vm.pool j := by
    rw [PAGESIZE]
    omega
  refine ⟨⟨{ w.vm with pool := pool' }, frameNumber w.vm.pool j :: w.owned⟩, ?_,
    ⟨treeInv_allocated hw.inv ha, ⟨hw.counted.tables, ?_⟩, fun g hg => ?_, fun g hg k hk => ?_, ?_,
      fun b hb => ?_, fun b k hk hb => ?_⟩, rfl⟩
  · show (pmmAllocate w.vm.pool).bind _ = _
    rw [ha, Option.bind_some]
    simp only [hframe]
  · show freeFrames pool' + S.card = F - 1
    omega
  · rcases List.mem_cons.mp hg with rfl | hg
    · exact fun q hq hqg => hw.inv.taken q _ hq hqg j hj rfl
    · exact hw.fresh g hg
  · rw [hlater.number]
    rcases List.mem_cons.mp hg with rfl | hg
    · intro heq
      exact ((hmark k).mp hk).2 (Nat.add_left_cancel heq).symm
    · exact hw.taken g hg k (hlater.free k hk)
  · exact List.nodup_cons.mpr ⟨fun hmem => hw.taken _ hmem j hj rfl, hw.distinct⟩
  · rcases List.mem_cons.mp hb with hb | hb
    · exact hw.free b j hj hb
    · exact hw.owned b hb
  · rw [hlater.number] at hb
    exact hw.free b k (hlater.free k hk) hb

/-- A store to a frame that is no table changes no path. -/
theorem follow_update {m : Memory} {x : UInt8} {q : Path} (hfresh : Fresh (slot m) r 3 (b / 0x1000))
    (hq : q.length ≤ 4) : follow (slot (Function.update m b x)) r q = follow (slot m) r q := by
  refine follow_off (z := b / 0x1000) (fun f hf => ?_) fun p hpre hne => ?_
  · funext i
    have hi := i.isLt
    have hentry : entry (Function.update m b x) (4096 * f) i = entry m (4096 * f) i := by
      refine readLE_congr fun k hk => Function.update_of_ne ?_ x m
      omega
    rw [slot, slot, hentry]
  · have hlt : p.length < q.length :=
      lt_of_le_of_ne hpre.length_le fun heq => hne (hpre.eq_of_length heq)
    exact hfresh p (by omega)

theorem step_store (hw : Serves m w r S F) (hb : b / 0x1000 ∈ w.owned) :
    ∃ w', step w (.store b x) = some w' ∧ Serves (Function.update m b x) w' r S F ∧
      ∀ q : Path, q.length ≤ 4 → follow (slot w'.vm.mem) r q = follow (slot w.vm.mem) r q := by
  have hpaths : ∀ q : Path, q.length ≤ 4 →
      follow (slot (Function.update w.vm.mem b x)) r q = follow (slot w.vm.mem) r q :=
    fun q hq => follow_update (hw.fresh _ hb) hq
  have hbyte : ∀ a, w.vm.mem a = m a → Function.update w.vm.mem b x a = Function.update m b x a := by
    intro a ha
    rw [Function.update_apply, Function.update_apply, ha]
  refine ⟨_, rfl, ⟨⟨hw.inv.root, hw.inv.framed, fun p q t hp hq hpt hqt => ?_,
    fun q f hq hf => ?_⟩, ⟨fun q h1 h3 => ?_, hw.counted.frames⟩, fun g hg q hq => ?_, hw.taken,
    hw.distinct, fun a ha => hbyte a (hw.owned a ha),
    fun a j hj ha => hbyte a (hw.free a j hj ha)⟩, hpaths⟩
  · rw [hpaths p (by omega)] at hpt
    rw [hpaths q (by omega)] at hqt
    exact hw.inv.tree p q t hp hq hpt hqt
  · rw [hpaths q (by omega)] at hf
    exact hw.inv.taken q f hq hf
  · rw [hpaths q (by omega)]
    exact hw.counted.tables q h1 h3
  · rw [hpaths q (by omega)]
    exact hw.fresh g hg q hq

end Steps

/-! ## Runs -/

/-- A run from any state that serves its users, with a frame for every table and every user. -/
theorem run_serves {m : Memory} {w : World} {r F : Nat} {S : Finset Path} {es : List Event}
    (hw : Serves m w r S F) (hframes : (S ∪ tablePaths (mapCalls es)).card + takes es ≤ F)
    (hown : Along step Permitted w es) :
    ∃ w', run step w es = some w' ∧
      Serves (stored m es) w' r (S ∪ tablePaths (mapCalls es)) (F - takes es) ∧
      ∀ v, follow (slot w'.vm.mem) r (path v) =
        (follow (slot w.vm.mem) r (path v)).or (lookup (mapCalls es) v) := by
  induction es generalizing m w S F with
  | nil =>
    refine ⟨w, rfl, ?_, fun v => (Option.or_none).symm⟩
    rwa [mapCalls, tablePaths, Finset.union_empty, stored, takes, Nat.sub_zero]
  | cons e es ih =>
    obtain ⟨hpermitted, hrest⟩ := hown
    cases e with
    | map v p =>
      have hassoc : S ∪ tablePaths (mapCalls (.map v p :: es)) =
          S ∪ levels v ∪ tablePaths (mapCalls es) := (Finset.union_assoc _ _ _).symm
      rw [hassoc] at hframes ⊢
      rw [takes] at hframes
      have hcard : (S ∪ levels v).card ≤ (S ∪ levels v ∪ tablePaths (mapCalls es)).card :=
        Finset.card_le_card Finset.subset_union_left
      obtain ⟨w1, hstep, hw1, hpaths⟩ := step_map (v := v) (p := p) hw (by omega)
      obtain ⟨w', hrun, hw', hall⟩ := ih hw1 hframes (hrest w1 hstep)
      refine ⟨w', by rw [run_cons, hstep, Option.bind_some, hrun], hw', fun a => ?_⟩
      rw [hall a, hpaths a, mapCalls, lookup_cons, lookup_cons, Option.or_assoc]
      split <;> simp [lookup]
    | take =>
      rw [mapCalls, takes] at hframes
      have hcard : S.card ≤ (S ∪ tablePaths (mapCalls es)).card :=
        Finset.card_le_card Finset.subset_union_left
      obtain ⟨w1, hstep, hw1, hmem⟩ := step_take hw (by omega)
      obtain ⟨w', hrun, hw', hall⟩ := ih hw1 (by omega) (hrest w1 hstep)
      refine ⟨w', by rw [run_cons, hstep, Option.bind_some, hrun], ?_, fun a => ?_⟩
      · rwa [mapCalls, stored, takes, Nat.add_comm, ← Nat.sub_sub]
      · rw [hall a, hmem, mapCalls]
    | store b x =>
      rw [mapCalls, takes] at hframes
      obtain ⟨w1, hstep, hw1, hpaths⟩ := step_store (x := x) hw hpermitted
      obtain ⟨w', hrun, hw', hall⟩ := ih hw1 hframes (hrest w1 hstep)
      refine ⟨w', by rw [run_cons, hstep, Option.bind_some, hrun], ?_, fun a => ?_⟩
      · rwa [mapCalls, stored, takes]
      · rw [hall a, hpaths _ (by simp [path]), mapCalls]

/-- The start of `init_paging`: `pml` is taken and cleared. Other users have had the frames
`owned` before. -/
def boot (m : Memory) (pool : Pool) (owned : List Nat) : Option World := do
  let (pml, pool) ← pmmAllocate pool
  some ⟨⟨memset m pml 0 0x1000, pool, pml⟩, owned⟩

/-- Neither side has disturbed the other. -/
structure Undisturbed (m : Memory) (es : List Event) (w : World) : Prop where
  translations : ∀ v, walk w.vm.mem w.vm.pml v = (lookup (mapCalls es) v).map (0x1000 * ·)
  contents : ∀ b, b / 0x1000 ∈ w.owned → w.vm.mem b = stored m es b
  distinct : w.owned.Nodup

theorem boot_serves (m : Memory) {pool : Pool} (owned : List Nat) (hf : Framed pool)
    (hdistinct : owned.Nodup) (howned : ∀ g ∈ owned, ∀ j, IsFree pool j → g ≠ frameNumber pool j)
    (hfree : 0 < freeFrames pool) :
    ∃ w r, boot m pool owned = some w ∧ Serves m w r ∅ (freeFrames pool - 1) ∧
      ∀ v, follow (slot w.vm.mem) r (path v) = none := by
  obtain ⟨j, pool', ha, hj, hmark, hcount, _⟩ := pmmAllocate_of_free hfree
  have hlater := pmmAllocate_later ha
  obtain ⟨r, pool'', ha', hinv, _⟩ := treeInv_zeroed m hf hfree
  rw [(hf.address hj).1, PAGESIZE] at ha
  rw [ha] at ha'
  obtain ⟨hr, rfl⟩ := Prod.mk.inj (Option.some.inj ha')
  obtain rfl : r = frameNumber pool j := by omega
  have hslots : slot (memset m (4096 * frameNumber pool j) 0 0x1000) =
      clear (slot m) (frameNumber pool j) := by
    rw [memset_eq_fill, slot_fill]
  have hempty : ∀ q : Path, q ≠ [] →
      follow (slot (memset m (4096 * frameNumber pool j) 0 0x1000)) (frameNumber pool j) q = none := by
    intro q hq
    obtain ⟨i, p, rfl⟩ := List.exists_cons_of_ne_nil hq
    rw [hslots, follow_clear_root]
  have hfresh : ∀ g, g ≠ frameNumber pool j →
      Fresh (slot (memset m (4096 * frameNumber pool j) 0 0x1000)) (frameNumber pool j) 3 g := by
    intro g hg q _ hqg
    by_cases hq : q = []
    · subst hq
      exact hg (Option.some.inj hqg).symm
    · rw [hempty q hq] at hqg
      cases hqg
  have hbyte : ∀ b, b / 0x1000 ≠ frameNumber pool j →
      memset m (4096 * frameNumber pool j) 0 0x1000 b = m b := by
    intro b hb
    rw [memset_eq_fill, fill_outside 0 (by omega)]
  have hbefore : ∀ g ∈ owned, g ≠ frameNumber pool j := fun g hg => howned g hg j hj
  have hboot : boot m pool owned =
      some ⟨⟨memset m (4096 * frameNumber pool j) 0 0x1000, pool', 4096 * frameNumber pool j⟩, owned⟩ := by
    rw [boot, ha, Option.bind_eq_bind, Option.bind_some]
  refine ⟨_, frameNumber pool j, hboot, ⟨hinv, ⟨fun q h1 _ => ?_, ?_⟩,
    fun g hg => hfresh g (hbefore g hg), fun g hg k hk => ?_, hdistinct,
    fun b hb => hbyte b (hbefore _ hb), fun b k hk hb => hbyte b ?_⟩,
    fun v => hempty _ (by simp [path])⟩
  · have hq : q ≠ [] := by
      rintro rfl
      simp at h1
    simp [hempty q hq]
  · show freeFrames pool' + (∅ : Finset Path).card = freeFrames pool - 1
    rw [Finset.card_empty]
    omega
  · rw [hlater.number]
    exact howned g hg k (hlater.free k hk)
  · rw [hb, hlater.number]
    intro heq
    exact ((hmark k).mp hk).2 (Nat.add_left_cancel heq)

/-- With a frame for every table and every user, each order of their calls and stores is
carried out; the translations are those of the calls of `map_page` and the bytes those of
the stores, as if nobody else used the pool. -/
theorem run_undisturbed (m : Memory) {pool : Pool} {owned : List Nat} {es : List Event}
    (hf : Framed pool) (hdistinct : owned.Nodup)
    (howned : ∀ g ∈ owned, ∀ j, IsFree pool j → g ≠ frameNumber pool j)
    (hframes : 1 + (tablePaths (mapCalls es)).card + takes es ≤ freeFrames pool)
    (hown : ∀ w, boot m pool owned = some w → Along step Permitted w es) :
    ∃ w w', boot m pool owned = some w ∧ run step w es = some w' ∧ Undisturbed m es w' := by
  obtain ⟨w, r, hboot, hw, hempty⟩ := boot_serves m owned hf hdistinct howned (by omega)
  have hfits : (∅ ∪ tablePaths (mapCalls es)).card + takes es ≤ freeFrames pool - 1 := by
    rw [Finset.empty_union]
    omega
  obtain ⟨w', hrun, hw', hpaths⟩ := run_serves hw hfits (hown w hboot)
  refine ⟨w, w', hboot, hrun, fun v => ?_, hw'.owned, hw'.distinct⟩
  rw [hw'.inv.root, walk_eq_slots, hpaths v, hempty v, Option.none_or]

/-- A frame from the pool and one from before, with a page mapped in between. -/
def sampleEvents : List Event :=
  [.take, .store 0x201010 7, .map 0xFFFFFFFF80000000 0x5000, .store 0x1FF000 9]

theorem sampleEvents_permitted {w : World}
    (hboot : boot (fun _ => 0) samplePool [0x1FF] = some w) :
    Along step Permitted w sampleEvents := by
  have hpml : pmmAllocate samplePool =
      some (0x200000, { samplePool with bitmap := samplePool.bitmap.setIfInBounds 0 1 }) := by
    decide +kernel
  have hnext : pmmAllocate { samplePool with bitmap := samplePool.bitmap.setIfInBounds 0 1 } =
      some (0x201000, { samplePool with
        bitmap := (samplePool.bitmap.setIfInBounds 0 1).setIfInBounds 1 1 }) := by
    decide +kernel
  rw [boot, hpml, Option.bind_eq_bind, Option.bind_some] at hboot
  obtain rfl := Option.some.inj hboot
  refine ⟨trivial, fun w1 h1 => ?_⟩
  simp only [step, hnext, Option.bind_eq_bind, Option.bind_some, Option.some.injEq] at h1
  subst h1
  refine ⟨by simp [Permitted], fun w2 h2 => ?_⟩
  have howned : w2.owned = [0x201, 0x1FF] := by rw [← Option.some.inj h2]
  refine ⟨trivial, fun w3 h3 => ?_⟩
  have hsame : w3.owned = w2.owned := by
    obtain ⟨vm, _, hvm⟩ := Option.bind_eq_some_iff.mp h3
    rw [← Option.some.inj hvm]
  refine ⟨?_, fun _ _ => trivial⟩
  rw [Permitted, hsame, howned]
  decide

theorem run_undisturbed_sample :
    ∃ w w', boot (fun _ => 0) samplePool [0x1FF] = some w ∧ run step w sampleEvents = some w' ∧
      Undisturbed (fun _ => 0) sampleEvents w' := by
  have hcard : (tablePaths (mapCalls sampleEvents)).card ≤ 3 :=
    (Finset.card_union_le _ _).trans (Nat.add_le_add Finset.card_le_three (Nat.le_refl 0))
  refine run_undisturbed (fun _ => 0) samplePool_framed (List.nodup_singleton _) ?_ ?_
    fun w hw => sampleEvents_permitted hw
  · intro g hg j _
    rw [List.mem_singleton.mp hg, frameNumber, show samplePool.base / PAGESIZE = 0x200 by decide]
    omega
  · rw [samplePool_free, show takes sampleEvents = 1 by rfl]
    omega

/-! ## `init_paging` -/

theorem run_maps (w : World) (calls : List Call) :
    run step w (calls.map fun c => .map c.1 c.2) =
      (run mapCall w.vm calls).map fun vm => { w with vm := vm } := by
  induction calls generalizing w with
  | nil => rfl
  | cons c calls ih =>
    rw [List.map_cons, run_cons, run_cons]
    show ((mapCall w.vm c).bind _).bind _ = _
    cases mapCall w.vm c with
    | none => rfl
    | some vm => exact ih { w with vm := vm }

theorem mapCalls_maps (calls : List Call) :
    mapCalls (calls.map fun c => .map c.1 c.2) = calls := by
  induction calls with
  | nil => rfl
  | cons c calls ih => rw [List.map_cons, mapCalls, ih]

theorem takes_maps (calls : List Call) : takes (calls.map fun c => .map c.1 c.2) = 0 := by
  induction calls with
  | nil => rfl
  | cons c calls ih => rw [List.map_cons, takes, ih]

theorem stored_maps (m : Memory) (calls : List Call) :
    stored m (calls.map fun c => .map c.1 c.2) = m := by
  induction calls with
  | nil => rfl
  | cons c calls ih => rw [List.map_cons, stored, ih]

theorem permitted_maps (w : World) (calls : List Call) :
    Along step Permitted w (calls.map fun c => .map c.1 c.2) := by
  refine along_of_forall fun w e he => ?_
  obtain ⟨c, _, rfl⟩ := List.mem_map.mp he
  trivial

/-- A fresh address space changes no byte outside of the frames that it takes from the pool. -/
theorem contents_of_calls {m : Memory} {pool pool' : Pool} {calls : List Call} {pml b : Nat} {s : Vm}
    (hf : Framed pool) (hfree : 1 + (tablePaths calls).card ≤ freeFrames pool)
    (ha : pmmAllocate pool = some (pml, pool'))
    (h : run mapCall ⟨memset m pml 0 0x1000, pool', pml⟩ calls = some s)
    (hb : ∀ j, IsFree pool j → b / 0x1000 ≠ frameNumber pool j) : s.mem b = m b := by
  obtain ⟨w, r, hboot, hw, _⟩ := boot_serves m [b / 0x1000] hf (List.nodup_singleton _)
    (fun g hg => List.mem_singleton.mp hg ▸ hb) (by omega)
  rw [boot, ha, Option.bind_eq_bind, Option.bind_some] at hboot
  obtain rfl := Option.some.inj hboot
  have hfits : (∅ ∪ tablePaths (mapCalls (calls.map fun c => .map c.1 c.2))).card +
      takes (calls.map fun c => .map c.1 c.2) ≤ freeFrames pool - 1 := by
    rw [Finset.empty_union, mapCalls_maps, takes_maps]
    omega
  obtain ⟨w', hrun, hw', _⟩ := run_serves hw hfits (permitted_maps _ calls)
  rw [run_maps, h, Option.map_some] at hrun
  obtain rfl := Option.some.inj hrun
  have hbyte := hw'.owned b (List.mem_singleton_self _)
  rwa [stored_maps] at hbyte

theorem initPaging_contents {m : Memory} {pool : Pool} {framebuffer b : Nat} {s : Vm}
    (hf : Framed pool) (hfree : framesNeeded framebuffer ≤ freeFrames pool)
    (h : initPaging m pool framebuffer = some s)
    (hb : ∀ j, IsFree pool j → b / 0x1000 ≠ frameNumber pool j) : s.mem b = m b := by
  rw [framesNeeded] at hfree
  obtain ⟨j, pool', ha, _⟩ := pmmAllocate_of_free (show 0 < freeFrames pool by omega)
  rw [initPaging_eq_run framebuffer ha] at h
  exact contents_of_calls hf hfree ha h hb

theorem run_resize {s s' : Vm} {calls : List Call} {n : Nat} (hn : s.pool.pages ≤ n)
    (hleft : 0 < freeFrames s'.pool) (h : run mapCall s calls = some s') :
    run mapCall (resize s n) calls = some (resize s' n) := by
  induction calls using List.reverseRecOn generalizing s' with
  | nil =>
    obtain rfl := Option.some.inj h
    rfl
  | append_singleton calls c ih =>
    rw [run_snoc] at h
    obtain ⟨t, hrun, hlast⟩ := Option.bind_eq_some_iff.mp h
    have hpages : t.pool.pages = s.pool.pages := by
      refine run_invariant (P := fun t => t.pool.pages = s.pool.pages) (C := fun _ _ => True) ?_ rfl
        (along_of_forall fun _ _ _ => trivial) hrun
      intro t c t' ht _ hstep
      exact (mapPage_onward hstep).later.pages.trans ht
    rw [run_snoc_of (ih ((mapPage_onward hlast).some_left hleft) hrun)]
    exact mapPage_resize (hpages.trans_le hn) hleft hlast

/-- With a frame to spare, `init_paging` does not come to the frames behind, and would do the same
with more of them. -/
theorem initPaging_resize (m : Memory) {pool : Pool} {framebuffer n : Nat} (hf : Framed pool)
    (hal : framebuffer % 4096 = 0) (hend : framebuffer + 6400 * 4096 ≤ 2 ^ 32)
    (hspare : framesNeeded framebuffer < freeFrames pool) (hn : pool.pages ≤ n) :
    ∃ s, initPaging m pool framebuffer = some s ∧
      initPaging m (pool.resize n) framebuffer = some (resize s n) ∧
      ∀ v, Canonical v → physicalAddress s.mem s.pml v = intended framebuffer v := by
  obtain ⟨s, hs, hmap, hleft⟩ := initPaging_spec m hf hal hend (by omega)
  refine ⟨s, hs, ?_, hmap⟩
  obtain ⟨j, pool', ha, _, _, hcount, _, hpages⟩ :=
    pmmAllocate_of_free (show 0 < freeFrames pool by omega)
  have hwide := initPaging_eq_run (m := m) framebuffer (pmmAllocate_resize (by omega) hn ha)
  rw [initPaging_eq_run framebuffer ha] at hs
  have hrun := run_resize (n := n) (hpages.trans_le hn) (by omega) hs
  exact hwide.trans hrun

end PaskakasaOS.Kernel.Memory.FrameOwnership
