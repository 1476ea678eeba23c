import OsKernel.Lvm.Allocator

/-!
# The free-count shortcut of `vg_alloc_pe`

`vg_alloc_pe` asks `pv_alloc` only of the volumes whose counter says that there
are enough free PEs.  A volume with a run of `count` free PEs counts at least
`count` of them, so nothing that would have succeeded is left out; and a volume
that is asked and is too fragmented is left as it was.
-/

namespace OsKernel
namespace Lvm

open Lib
open Lib.FirstFit

/-- There are `count` consecutive free PEs inside the volume. -/
def Pv.HasRun (p : Pv) (count : Nat) : Prop :=
  ∃ first, first + count ≤ p.peCount.toNat ∧
    FreeRun (FreePe p.peBitmap) first count

theorem pvAlloc_eq_none_iff (p : Pv) {count : Nat} (hcount : 0 < count) :
    pvAlloc p count = none ↔ ¬ p.HasRun count := by
  rcases pvAlloc_spec p hcount with ⟨first, hfirst, hresult⟩ | ⟨hresult, hnone⟩
  · have hrun : p.HasRun count := ⟨first, hfirst.inside, hfirst.run⟩
    simp [hresult, hrun]
  · have hno : ¬ p.HasRun count :=
      fun ⟨first, hinside, hrun⟩ => hnone first hinside hrun
    simp [hresult, hno]

/-! ## Without the shortcut -/

/-- The loop of `vg_alloc_pe` without the test of `free_pe`. -/
def tryPvs (count : Int) : List Pv → Option (List Pv × Nat × Int)
  | [] => none
  | p :: rest =>
      match pvAlloc p count with
      | some (changed, start) => some (changed :: rest, 0, start)
      | none =>
          (tryPvs count rest).map fun (pvs, index, start) =>
            (p :: pvs, index + 1, start)

/-- `vg_alloc_pe` without the test of `free_pe`. -/
def tryAllocPe (g : Vg) (count : Int) : Option (Vg × Nat × Int) :=
  (tryPvs count g.pvs).map fun (pvs, index, start) =>
    ({ g with
        pvs := pvs
        freePe := wrap32 (g.freePe - count)
        history := g.history ++ [⟨index, start, count⟩] }, index, start)

theorem tryPvs_eq_none_iff {count : Int} {pvs : List Pv} :
    tryPvs count pvs = none ↔ ∀ p ∈ pvs, pvAlloc p count = none := by
  induction pvs with
  | nil => simp [tryPvs]
  | cons p rest ih =>
      rw [tryPvs]
      cases halloc : pvAlloc p count with
      | none => simp [ih, halloc]
      | some result => simp [halloc]

/-- The first volume in which `pv_alloc` succeeds. -/
theorem tryPvs_some {count : Int} {pvs pvs' : List Pv} {index : Nat}
    {start : Int} (h : tryPvs count pvs = some (pvs', index, start)) :
    (∃ p changed, pvs[index]? = some p ∧
      pvAlloc p count = some (changed, start) ∧
      pvs' = pvs.set index changed) ∧
    ∀ j < index, ∀ q, pvs[j]? = some q → pvAlloc q count = none := by
  induction pvs generalizing pvs' index with
  | nil => simp [tryPvs] at h
  | cons p rest ih =>
      rw [tryPvs] at h
      cases halloc : pvAlloc p count with
      | some result =>
          obtain ⟨changed, first⟩ := result
          rw [halloc] at h
          simp only [Option.some.injEq, Prod.mk.injEq] at h
          obtain ⟨rfl, rfl, rfl⟩ := h
          exact ⟨⟨p, changed, rfl, halloc, rfl⟩, fun j hj => by omega⟩
      | none =>
          rw [halloc] at h
          obtain ⟨⟨pvs'', index', start'⟩, hrest, heq⟩ :=
            Option.map_eq_some_iff.mp h
          simp only [Prod.mk.injEq] at heq
          obtain ⟨rfl, rfl, rfl⟩ := heq
          obtain ⟨⟨q, changed, hq, hpv, rfl⟩, hbefore⟩ := ih hrest
          refine ⟨⟨q, changed, hq, hpv, rfl⟩, ?_⟩
          intro j hj r hr
          cases j with
          | zero =>
              obtain rfl : p = r := by simpa using hr
              exact halloc
          | succ j => exact hbefore j (by omega) r (by simpa using hr)

/-! ## The shortcut leaves nothing out -/

/-- The test of the counter never keeps `pv_alloc` from succeeding. -/
theorem Pv.CountsFree.shortcut {p : Pv} (hp : p.CountsFree) {count : Nat}
    (hcount : 0 < count) :
    (if p.freePe ≥ count then pvAlloc p count else none) = pvAlloc p count := by
  by_cases henough : p.freePe ≥ count
  · rw [if_pos henough]
  · rw [if_neg henough]
    symm
    rw [pvAlloc_eq_none_iff p hcount]
    rintro ⟨first, hinside, hrun⟩
    exact henough (hp.le_freePe hrun (by omega))

theorem vgAllocPvs_eq_tryPvs {pvs : List Pv} (hpvs : ∀ p ∈ pvs, p.CountsFree)
    {count : Nat} (hcount : 0 < count) :
    vgAllocPvs count pvs = tryPvs count pvs := by
  induction pvs with
  | nil => rfl
  | cons p rest ih =>
      rw [vgAllocPvs, (hpvs p List.mem_cons_self).shortcut hcount,
        ih fun q hq => hpvs q (List.mem_cons_of_mem p hq)]
      rfl

/-- The group `g'` is `g` with the lowest run of `count` free PEs of the first
volume that has one marked and taken off the counters. -/
structure Vg.Allocated (g g' : Vg) (count index first : Nat) : Prop where
  volume : ∃ p changed, g.pvs[index]? = some p ∧
    FirstRun (FreePe p.peBitmap) p.peCount.toNat count first ∧
    PvAllocated p changed first count ∧ g'.pvs = g.pvs.set index changed
  lowest : ∀ j < index, ∀ q, g.pvs[j]? = some q → ¬ q.HasRun count
  totalPe_eq : g'.totalPe = g.totalPe
  freePe_eq : FitsInt (g.freePe - count) → g'.freePe = g.freePe - count

theorem allocated_of_tryAllocPe {g g' : Vg}
    (hg : ∀ p ∈ g.pvs, p.CountsFree) {count : Nat} (hcount : 0 < count)
    {index : Nat} {start : Int}
    (h : tryAllocPe g count = some (g', index, start)) :
    ∃ first : Nat, start = first ∧ g.Allocated g' count index first := by
  obtain ⟨⟨pvs, index', start'⟩, htry, heq⟩ := Option.map_eq_some_iff.mp h
  simp only [Prod.mk.injEq] at heq
  obtain ⟨rfl, rfl, rfl⟩ := heq
  obtain ⟨⟨p, changed, hp, halloc, hset⟩, hbefore⟩ := tryPvs_some htry
  obtain ⟨first, hstart, hfirst, hallocated, -⟩ :=
    (hg p (List.mem_of_getElem? hp)).pvAlloc_some hcount halloc
  refine ⟨first, hstart, ?_⟩
  exact {
    volume := ⟨p, changed, hp, hfirst, hallocated, hset⟩
    lowest := by
      intro j hj q hq
      rw [← pvAlloc_eq_none_iff q hcount]
      exact hbefore j hj q hq
    totalPe_eq := rfl
    freePe_eq := wrap32_of_fitsInt }

/-- If the counters of the volumes are right, `vg_alloc_pe` does what it would
do without looking at them: it fails exactly if no volume has a run of `count`
free PEs, and otherwise marks the lowest run of the first volume that has
one. -/
theorem vgAllocPe_exact {g : Vg} (hg : ∀ p ∈ g.pvs, p.CountsFree)
    {count : Nat} (hcount : 0 < count) :
    vgAllocPe g count = tryAllocPe g count ∧
    (vgAllocPe g count = none ↔ ∀ p ∈ g.pvs, ¬ p.HasRun count) ∧
    ∀ g' index start, vgAllocPe g count = some (g', index, start) →
      ∃ first : Nat, start = first ∧ g.Allocated g' count index first := by
  have htry : vgAllocPe g count = tryAllocPe g count := by
    rw [vgAllocPe, tryAllocPe, vgAllocPvs_eq_tryPvs hg hcount]
  refine ⟨htry, ?_, ?_⟩
  · rw [htry, tryAllocPe, Option.map_eq_none_iff, tryPvs_eq_none_iff]
    exact forall₂_congr fun p _ => pvAlloc_eq_none_iff p hcount
  · intro g' index start halloc
    rw [htry] at halloc
    exact allocated_of_tryAllocPe hg hcount halloc

/-- Two volumes of three PEs; the middle one of the first volume is taken. -/
def fragmented : Vg where
  pvs := [⟨6144, 3, [2], 2⟩, ⟨6144, 3, [0], 3⟩]
  totalPe := 6
  freePe := 5
  history := []

theorem fragmented_countsFree : ∀ p ∈ fragmented.pvs, p.CountsFree := by
  intro p hp
  simp only [fragmented, List.mem_cons, List.not_mem_nil, or_false] at hp
  rcases hp with rfl | rfl
  · exact ⟨by decide, by decide, by decide⟩
  · exact ⟨by decide, by decide, by decide⟩

/-- The first volume has two free PEs but no two in a row, and is skipped. -/
theorem vgAllocPe_exact_fragmented :
    ∃ g', vgAllocPe fragmented 2 = some (g', 1, 0) ∧
      fragmented.Allocated g' 2 1 0 := by
  have hrun : (vgAllocPe fragmented 2).isSome = true := by decide
  have halloc : vgAllocPe fragmented 2 =
      some ((Option.get _ hrun).1, 1, 0) := by decide +revert
  have hexact := vgAllocPe_exact fragmented_countsFree (show 0 < 2 by decide)
  obtain ⟨first, hstart, hallocated⟩ := hexact.2.2 _ _ _ halloc
  obtain rfl : first = 0 := by exact_mod_cast hstart.symm
  exact ⟨_, halloc, hallocated⟩

end Lvm
end OsKernel
