import PaskakasaOS.Kernel.Memory.MapPage

/-!
# The address space over runs of `map_page`

A `map_page` call with enough free frames adds one page to the address space
and leaves every other page alone. `Reachable` collects the states a zeroed
`pml` can get into, with other users of the frame pool in between.
-/
namespace PaskakasaOS.Kernel.Memory.AddressSpace

open Lib.ByteMemory Lib.TableTree
open Utils.Mem (memset memset_eq_fill)
open Pmm Vmm VmmTree MapPage

/-- The call from `s` to `s'` mapped the page of `v` to `p` unless it was mapped. -/
structure Mapped (s s' : Vm) (r v p : Nat) : Prop where
  inv : TreeInv s' r
  page : follow (slot s'.mem) r (path v) =
    (follow (slot s.mem) r (path v)).or (some (p / 4096 % 2 ^ 40))
  other : ∀ v', path v' ≠ path v →
    follow (slot s'.mem) r (path v') = follow (slot s.mem) r (path v')
  frames : freeFrames s'.pool + tablesNeeded s.mem s.pml v = freeFrames s.pool

theorem mapPage_spec {s : Vm} {r v : Nat} (p : Nat) (hs : TreeInv s r)
    (hfree : tablesNeeded s.mem s.pml v ≤ freeFrames s.pool) :
    ∃ s', mapPage s v p = some s' ∧ Mapped s s' r v p := by
  obtain ⟨s1, s2, s3, s', c1, c2, c3, hmap, d1, d2, d3, d4⟩ := mapPage_steps p hs hfree
  have hkeep : ∀ v', follow (slot s3.mem) r (path v') = follow (slot s.mem) r (path v') := by
    intro v'
    rw [d3.path (by simp), d2.path (by simp), d1.path (by simp)]
  refine ⟨s', hmap, d4.inv, ?_, ?_, ?_⟩
  · rw [d4.page, hkeep]
  · intro v' hne
    rw [d4.other _ le_rfl hne, hkeep]
  · have m2 := d1.other (level2 v) (by simp) (by simp [level2, level1])
    have m3 := d1.other (level3 v) (by simp) (by simp [level3, level2, level1])
    have m3' := d2.other (level3 v) (by simp) (by simp [level3, level2, level1])
    have f1 := d1.frames
    have f2 := d2.frames
    have f3 := d3.frames
    rw [hs.root, tablesNeeded_eq, d4.pool]
    unfold missing
    rw [m2] at f2
    rw [m3', m3] at f3
    omega

/-- The states reached from a zeroed `pml` by `map_page` calls for which the pool
has the frames, and by frames handed out to others. -/
inductive Reachable : Vm → Prop
  | zeroed {m : Memory} {pool pool' : Pool} {frame : Nat} (hf : Framed pool)
      (hfree : 0 < freeFrames pool) (ha : pmmAllocate pool = some (frame, pool')) :
      Reachable ⟨memset m frame 0 0x1000, pool', frame⟩
  | mapped {s s' : Vm} {v p : Nat} (hs : Reachable s)
      (hfree : tablesNeeded s.mem s.pml v ≤ freeFrames s.pool)
      (hm : mapPage s v p = some s') : Reachable s'
  | allocated {s : Vm} {pool' : Pool} {frame : Nat} (hs : Reachable s)
      (hfree : 0 < freeFrames s.pool) (ha : pmmAllocate s.pool = some (frame, pool')) :
      Reachable { s with pool := pool' }

theorem treeInv_zeroed {pool : Pool} (m : Memory) (hf : Framed pool) (hfree : 0 < freeFrames pool) :
    ∃ r pool', pmmAllocate pool = some (4096 * r, pool') ∧
      TreeInv ⟨memset m (4096 * r) 0 0x1000, pool', 4096 * r⟩ r ∧
      freeFrames pool' + 1 = freeFrames pool := by
  obtain ⟨j, pool', ha, hj, hfree', hcount, _⟩ := pmmAllocate_of_free hfree
  have hlater := pmmAllocate_later ha
  obtain ⟨haddr, _⟩ := hf.address hj
  have hslots : slot (memset m (4096 * frameNumber pool j) 0 0x1000) =
      clear (slot m) (frameNumber pool j) := by
    rw [memset_eq_fill, slot_fill]
  refine ⟨frameNumber pool j, pool', by rw [ha, haddr, PAGESIZE],
    ⟨rfl, hlater.framed hf, ?_, fun q f _ hq k hk => ?_⟩, hcount⟩
  · exact hslots ▸ tree_clear_root _ _ 3
  · simp only [hslots] at hq
    cases q with
    | nil =>
      obtain rfl := Option.some.inj hq
      rw [hlater.number]
      intro heq
      exact ((hfree' k).mp hk).2 (Nat.add_left_cancel heq).symm
    | cons i q => simp [follow_clear_root] at hq

theorem treeInv_allocated {s : Vm} {r : Nat} (hs : TreeInv s r) {frame : Nat} {pool' : Pool}
    (ha : pmmAllocate s.pool = some (frame, pool')) : TreeInv { s with pool := pool' } r := by
  have hlater := pmmAllocate_later ha
  refine ⟨hs.root, hlater.framed hs.framed, hs.tree, fun q f hq hfq k hk => ?_⟩
  rw [hlater.number]
  exact hs.taken q f hq hfq k (hlater.free k hk)

theorem Reachable.treeInv {s : Vm} (hs : Reachable s) : ∃ r, TreeInv s r := by
  induction hs with
  | @zeroed m pool pool' frame hf hfree ha =>
    obtain ⟨r, pool'', ha', hinv, _⟩ := treeInv_zeroed m hf hfree
    rw [ha] at ha'
    obtain ⟨rfl, rfl⟩ := Prod.mk.inj (Option.some.inj ha')
    exact ⟨r, hinv⟩
  | @mapped s s' v p _ hfree hm ih =>
    obtain ⟨r, hinv⟩ := ih
    obtain ⟨t, ht, hmapped⟩ := mapPage_spec p hinv hfree
    rw [hm] at ht
    obtain rfl := Option.some.inj ht
    exact ⟨r, hmapped.inv⟩
  | allocated _ _ ha ih =>
    obtain ⟨r, hinv⟩ := ih
    exact ⟨r, treeInv_allocated hinv ha⟩

theorem tablesNeeded_le_three (m : Memory) (pml v : Nat) : tablesNeeded m pml v ≤ 3 := by
  unfold tablesNeeded
  split
  · exact le_rfl
  · split
    · omega
    · split <;> omega

/-- From every reachable state, with a free frame for each table it needs,
`map_page` maps the page of `v` to `p` if it was unmapped, keeps its frame if it
was mapped, changes the walk of no other page, and leaves the tables a tree. -/
theorem mapPage_maps_one_page {s : Vm} (hs : Reachable s) (v p : Nat) (hp : p < 2 ^ 52)
    (hal : p % 4096 = 0) (hfree : tablesNeeded s.mem s.pml v ≤ freeFrames s.pool) :
    ∃ s', mapPage s v p = some s' ∧ s'.pml = s.pml ∧
      walk s'.mem s'.pml v = some ((walk s.mem s.pml v).getD p) ∧
      (∀ v', path v' ≠ path v → walk s'.mem s'.pml v' = walk s.mem s.pml v') ∧
      NoSharing s'.mem s'.pml := by
  obtain ⟨r, hinv⟩ := hs.treeInv
  obtain ⟨s', hmap, hm⟩ := mapPage_spec p hinv hfree
  refine ⟨s', hmap, hm.inv.root.trans hinv.root.symm, ?_, ?_, ?_⟩
  · rw [hm.inv.root, hinv.root, walk_eq_slots, walk_eq_slots, hm.page]
    cases follow (slot s.mem) r (path v) with
    | none =>
      simp only [Option.none_or, Option.map_some, Option.map_none, Option.getD_none]
      congr 1
      omega
    | some f => rfl
  · intro v' hne
    rw [hm.inv.root, hinv.root, walk_eq_slots, walk_eq_slots, hm.other v' hne]
  · rw [hm.inv.root]
    exact noSharing_of_tree hm.inv.tree

/-- A pool of 256 frames from 2 MiB on, nothing handed out. -/
def samplePool : Pool := ⟨0x200000, 0x100000, 256, Vector.replicate 100 0⟩

def sampleVm : Vm :=
  ⟨memset (fun _ => 0) 0x200000 0 0x1000,
    { samplePool with bitmap := samplePool.bitmap.setIfInBounds 0 1 }, 0x200000⟩

theorem sampleVm_mem : sampleVm.mem = fill (fun _ => 0) 0x200000 0x1000 0 := memset_eq_fill _ _ _ _

theorem samplePool_framed : Framed samplePool := ⟨by decide, by decide⟩

theorem samplePool_free : freeFrames samplePool = 100 := freeFrames_fresh rfl

theorem sampleVm_reachable : Reachable sampleVm :=
  .zeroed samplePool_framed (by rw [samplePool_free]; decide) (by decide +kernel)

theorem sampleVm_unmapped (v : Nat) : walk sampleVm.mem sampleVm.pml v = none := by
  have hpml : sampleVm.pml = 4096 * 0x200 := rfl
  have hcleared : slot sampleVm.mem = clear (slot fun _ => 0) 0x200 := by
    rw [sampleVm_mem]
    exact slot_fill (fun _ => 0) 0x200
  rw [hpml, walk_eq_slots, hcleared, path, follow_clear_root, Option.map_none]

theorem mapPage_reachable {s s' : Vm} {v p : Nat} (hs : Reachable s) (hfree : 3 ≤ freeFrames s.pool)
    (hm : mapPage s v p = some s') : Reachable s' ∧ freeFrames s.pool ≤ freeFrames s'.pool + 3 := by
  have hneed := tablesNeeded_le_three s.mem s.pml v
  obtain ⟨r, hinv⟩ := hs.treeInv
  obtain ⟨t, ht, hmapped⟩ := mapPage_spec p hinv (hneed.trans hfree)
  rw [hm] at ht
  obtain rfl := Option.some.inj ht
  have hframes := hmapped.frames
  exact ⟨.mapped hs (hneed.trans hfree) hm, by omega⟩

/-- A page that is mapped keeps its frame, and so does the other one. -/
theorem mapPage_maps_one_page_again :
    ∃ s1 s2 s3, mapPage sampleVm 0xFFFFFFFF80000000 0x100000 = some s1 ∧
      mapPage s1 0x200000 0x200000 = some s2 ∧ mapPage s2 0xFFFFFFFF80000000 0x5000 = some s3 ∧
      walk s3.mem s3.pml 0xFFFFFFFF80000000 = some 0x100000 ∧
      walk s3.mem s3.pml 0x200000 = some 0x200000 ∧ NoSharing s3.mem s3.pml := by
  have hfree : 9 ≤ freeFrames sampleVm.pool := by decide +kernel
  have hneed (s : Vm) (v : Nat) : tablesNeeded s.mem s.pml v ≤ 3 := tablesNeeded_le_three s.mem s.pml v
  obtain ⟨s1, h1, _, hkernel1, hother1, _⟩ := mapPage_maps_one_page sampleVm_reachable
    0xFFFFFFFF80000000 0x100000 (by decide) (by decide) ((hneed _ _).trans (by omega))
  obtain ⟨hs1, hfree1⟩ := mapPage_reachable sampleVm_reachable (by omega) h1
  obtain ⟨s2, h2, _, hlow2, hother2, _⟩ := mapPage_maps_one_page hs1 0x200000 0x200000 (by decide)
    (by decide) ((hneed _ _).trans (by omega))
  obtain ⟨hs2, hfree2⟩ := mapPage_reachable hs1 (by omega) h2
  obtain ⟨s3, h3, _, hkernel3, hother3, hsharing⟩ := mapPage_maps_one_page hs2 0xFFFFFFFF80000000 0x5000
    (by decide) (by decide) ((hneed _ _).trans (by omega))
  have hapart : path 0xFFFFFFFF80000000 ≠ path 0x200000 := by decide
  refine ⟨s1, s2, s3, h1, h2, h3, ?_, ?_, hsharing⟩
  · rw [hkernel3, hother2 _ hapart, hkernel1, sampleVm_unmapped]
    rfl
  · rw [hother3 _ hapart.symm, hlow2, hother1 _ hapart.symm, sampleVm_unmapped]
    rfl

end PaskakasaOS.Kernel.Memory.AddressSpace
