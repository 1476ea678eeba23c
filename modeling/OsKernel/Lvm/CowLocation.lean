import OsKernel.Lvm.Snapshot

/-!
# What a snapshot records of its COW area

`vg_alloc_pe` returns the PV and the first PE of an extent through two output
parameters.  `lv_create_snapshot` passes the same variable for both, and a
snapshot has no field for the PV: what it records is the first PE and the
number of PEs.

COW areas that are not empty never overlap, so on one PV the record says which
area is meant.  On different PVs two areas can have the same first PE and
size, and their records then are the same (`cow_identified_iff`).
-/

namespace OsKernel
namespace Lvm

open Lib

/-! ## Extents are marked and disjoint for any count -/

/-- `pv_alloc` of any count, positive or not: the run it returns was free, and
it is what gets marked. -/
theorem pvAlloc_marks {p changed : Pv} {count start : Int}
    (hmapped : p.Mapped) (halloc : pvAlloc p count = some (changed, start)) :
    (0 < count → 0 ≤ start) ∧
      ∀ pe : Nat,
        (start ≤ pe → (pe : Int) < start + count →
          Bitmap.test p.peBitmap pe = false) ∧
        (Bitmap.test changed.peBitmap pe = true ↔
          Bitmap.test p.peBitmap pe = true ∨
            start ≤ pe ∧ (pe : Int) < start + count) := by
  rcases Int.lt_or_le 0 count with hpos | hempty
  · obtain ⟨n, rfl⟩ := Int.eq_ofNat_of_zero_le hpos.le
    obtain ⟨first, rfl, hfirst, rfl⟩ :=
      pvAlloc_eq_some (Int.natCast_pos.mp hpos) halloc
    have hinside := hfirst.inside
    have hroom : p.peCount ≤ 64 * p.peBitmap.length := hmapped
    refine ⟨fun _ => Int.natCast_nonneg _, fun pe => ⟨?_, ?_⟩⟩
    · intro hle hlt
      exact hfirst.run pe (by omega) (by omega)
    · rw [Bitmap.test_setRange _ (by omega), Bool.or_eq_true,
        decide_eq_true_eq]
      refine or_congr_right ?_
      omega
  · -- nothing is marked
    have hzero : count.toNat = 0 := by omega
    simp only [pvAlloc, hzero, Bitmap.setRange] at halloc
    split at halloc
    · contradiction
    · cases halloc
      refine ⟨fun hpos => by omega, fun pe => ⟨fun hle hlt => by omega, ?_⟩⟩
      exact (or_iff_left (by omega)).symm

/-- The extents handed out are disjoint and their PEs are marked.  Unlike
`Vg.Consistent` this says nothing about the counters, which a call with a
negative count changes. -/
structure Vg.Marked (g : Vg) : Prop where
  disjoint : g.history.Pairwise Extent.Disjoint
  start_nonneg : ∀ e ∈ g.history, 0 < e.count → 0 ≤ e.start
  marked : ∀ e ∈ g.history, ∀ pv pe, e.Covers pv pe →
    ∃ p, g.pvs[pv]? = some p ∧ Bitmap.test p.peBitmap pe = true

theorem vgAddPv_marked {g g' : Vg} {sizeSectors : Nat}
    (hadd : vgAddPv g (pvCreate sizeSectors) = some g') (hg : g.Marked) :
    g'.Marked := by
  obtain ⟨hpvs, hhistory, -, -⟩ := vgAddPv_some hadd
  constructor
  · rw [hhistory]
    exact hg.disjoint
  · rw [hhistory]
    exact hg.start_nonneg
  · rw [hhistory, hpvs]
    intro e he pv pe hcovers
    obtain ⟨p, hp, htest⟩ := hg.marked e he pv pe hcovers
    have hlt := (List.getElem?_eq_some_iff.mp hp).1
    exact ⟨p, by rw [List.getElem?_append_left hlt, hp], htest⟩

theorem vgAllocPe_marked {g g' : Vg} {count start : Int} {index : Nat}
    (hsafe : vgAllocSafe count g.pvs = true)
    (halloc : vgAllocPe g count = some (g', index, start)) (hg : g.Marked) :
    g'.Marked := by
  obtain ⟨p, changed, hp, hpv, rfl⟩ := vgAllocPe_some halloc
  have hindex : index < g.pvs.length := (List.getElem?_eq_some_iff.mp hp).1
  obtain ⟨hstart, hrun⟩ :=
    pvAlloc_marks (vgAllocPe_mapped hsafe halloc hp) hpv
  have hmarked : ∀ e ∈ g.history, ∀ pe, e.Covers index pe →
      Bitmap.test p.peBitmap pe = true := by
    intro e he pe hcovers
    obtain ⟨q, hq, hset⟩ := hg.marked e he index pe hcovers
    rw [hp] at hq
    obtain rfl := Option.some.inj hq
    exact hset
  constructor
  · refine List.pairwise_append.mpr
      ⟨hg.disjoint, List.pairwise_singleton _ _, ?_⟩
    intro e he f hf
    rw [List.mem_singleton.mp hf]
    exact Extent.disjoint_of_free (hmarked ·) (fun pe => (hrun pe).1) e he
  · intro e he
    rcases List.mem_append.mp he with hold | hnew
    · exact hg.start_nonneg e hold
    · rw [List.mem_singleton.mp hnew]
      exact hstart
  · intro e he pv pe hcovers
    rcases List.mem_append.mp he with hold | hnew
    · -- no mark is taken away
      obtain ⟨q, hq, hset⟩ := hg.marked e hold pv pe hcovers
      have hkeeps : Bitmap.test p.peBitmap pe = true →
          Bitmap.test changed.peBitmap pe = true :=
        fun hold => (hrun pe).2.mpr (Or.inl hold)
      obtain ⟨q', hq', hkept⟩ := exists_getElem?_set
        (R := fun p q : Pv => Bitmap.test p.peBitmap pe = true →
          Bitmap.test q.peBitmap pe = true)
        (fun _ hold => hold) hp hkeeps hq
      exact ⟨q', hq', hkept hset⟩
    · rw [List.mem_singleton.mp hnew] at hcovers
      obtain ⟨rfl, hle, hlt⟩ := hcovers
      exact ⟨changed, List.getElem?_set_self hindex,
        (hrun pe).2.mpr (Or.inr ⟨hle, hlt⟩)⟩

theorem VgChanges.marked {g g' : Vg} (h : VgChanges g g') (hg : g.Marked) :
    g'.Marked := by
  induction h with
  | refl => exact hg
  | tail _ hlast ih =>
      cases hlast with
      | addPv sizeSectors hadd => exact vgAddPv_marked hadd ih
      | allocPe count hcount hsafe halloc =>
          exact vgAllocPe_marked hsafe halloc ih

/-! ## The reserved extents of a run -/

/-- The extents reserved for the snapshots, in the order of their handles. -/
def SnapState.reserved (s : SnapState) : List Extent :=
  s.volumes.filterMap fun v => v.cow.map Cow.extent

/-- Replacing a volume by one with the same reservation. -/
theorem SnapState.reserved_set {s : SnapState} {handle : Nat} {v w : Volume}
    (hget : s.volumes[handle]? = some v)
    (hsame : w.cow.map Cow.extent = v.cow.map Cow.extent) (g : Vg) :
    SnapState.reserved { vg := g, volumes := s.volumes.set handle w } =
      s.reserved := by
  have hmap : (s.volumes.set handle w).map (fun u => u.cow.map Cow.extent) =
      s.volumes.map fun u => u.cow.map Cow.extent :=
    map_set_of_eq hget hsame
  have hreserved : ∀ l : List Volume,
      (l.filterMap fun u => u.cow.map Cow.extent) =
        (l.map fun u => u.cow.map Cow.extent).filterMap id := by
    intro l
    rw [List.filterMap_map]
    rfl
  rw [SnapState.reserved, SnapState.reserved, hreserved, hreserved, hmap]

/-- The group is marked, and what the snapshots reserved is, each once, among
the extents handed out. -/
structure SnapState.Reserves (s : SnapState) : Prop where
  marked : s.vg.Marked
  sublist : s.reserved.Sublist s.vg.history

theorem Performed.reserves {s : SnapState} {call : Call} {g : Vg}
    {outcome : Outcome} (h : Performed s.vg s.lv call g outcome)
    (hs : s.Reserves) : (s.after g outcome).Reserves := by
  cases h with
  | nothing => exact ⟨hs.marked, hs.sublist⟩
  | addPv sizeSectors hadd =>
      obtain ⟨-, hhistory, -, -⟩ := vgAddPv_some hadd
      refine ⟨vgAddPv_marked hadd hs.marked, ?_⟩
      show List.Sublist s.reserved g.history
      rw [hhistory]
      exact hs.sublist
  | create leCount hsafe =>
      refine ⟨(allocLes_vgChanges hsafe).marked hs.marked, ?_⟩
      show List.Sublist (List.filterMap _ (s.volumes ++ [_]))
        (lvCreate s.vg leCount).1.history
      rw [lvCreate_vg, allocLes_history, List.filterMap_append]
      exact hs.sublist.append (List.nil_sublist _)
  | extend additionalLe hget hsafe hextend =>
      obtain ⟨v, hv, rfl⟩ := SnapState.getElem?_of_lv hget
      obtain ⟨rfl, -⟩ := lvExtend_some hextend
      rw [SnapState.after_extended hv]
      refine ⟨(allocLes_vgChanges hsafe).marked hs.marked, ?_⟩
      rw [SnapState.reserved_set hv]
      · show List.Sublist _ (allocLes additionalLe.toNat s.vg).1.history
        rw [allocLes_history]
        exact hs.sublist.trans (List.sublist_append_left _ _)
      · rfl
  | createSnapshot cowPeCount hget hsafe halloc =>
      refine ⟨vgAllocPe_marked hsafe halloc hs.marked, ?_⟩
      obtain ⟨_, _, _, _, rfl⟩ := vgAllocPe_some halloc
      show List.Sublist (List.filterMap _ (s.volumes ++ [_])) _
      rw [List.filterMap_append]
      exact hs.sublist.append (List.Sublist.refl _)

theorem SnapEffect.reserves {s t : SnapState} {call : SnapCall}
    (h : SnapEffect s call t) (hs : s.Reserves) : t.Reserves := by
  cases h with
  | call htyped hperform => exact (perform_some hperform).reserves hs
  | @write handle origin v o lvSector hget =>
      refine ⟨hs.marked, ?_⟩
      rw [SnapState.reserved_set hget]
      · exact hs.sublist
      · show (v.cow.map _).map Cow.extent = _
        rw [Option.map_map]
        rfl

theorem reachable_reserves {s : SnapState}
    (hreach : snapSystem.Reachable s) : s.Reserves := by
  refine hreach.invariant (P := SnapState.Reserves) ?_ ?_
  · rintro s rfl
    exact ⟨⟨by simp [vgCreate], by simp [vgCreate], by simp [vgCreate]⟩,
      List.Sublist.refl _⟩
  · intro s call t _ hs hstep
    exact (snapStep_effect hstep).reserves hs

/-! ## Records and areas -/

/-- The volume with the handle is a snapshot. -/
def SnapState.Snapshot (s : SnapState) (handle : Nat) (v : Volume) (c : Cow) :
    Prop :=
  s.volumes[handle]? = some v ∧ v.cow = some c

/-- The recorded location of a COW area: `cow_pe_start` and `cow_pe_count`. -/
def Volume.location (v : Volume) : Int × Int :=
  (v.lv.cowPeStart, v.lv.cowPeCount)

/-- A snapshot's record says which extent was reserved for it, and no two
snapshots have the same record. -/
structure CowIdentified (s : SnapState) : Prop where
  determined : ∀ {i j v w c d}, s.Snapshot i v c → s.Snapshot j w d →
    v.location = w.location → c.extent = d.extent
  distinct : ∀ {i j v w c d}, s.Snapshot i v c → s.Snapshot j w d →
    v.location = w.location → i = j

/-- Different snapshots have disjoint COW areas. -/
theorem SnapState.Reserves.disjoint {s : SnapState} (hs : s.Reserves)
    {i j : Nat} {v w : Volume} {c d : Cow} (hv : s.Snapshot i v c)
    (hw : s.Snapshot j w d) (hne : i ≠ j) : c.extent.Disjoint d.extent := by
  have hpairwise := List.pairwise_filterMap.mp
    (hs.marked.disjoint.sublist hs.sublist)
  have hlt : ∀ {i j v w c d}, s.Snapshot i v c → s.Snapshot j w d → i < j →
      c.extent.Disjoint d.extent := by
    intro i j v w c d ⟨hi, hc⟩ ⟨hj, hd⟩ hij
    obtain ⟨hilt, rfl⟩ := List.getElem?_eq_some_iff.mp hi
    obtain ⟨hjlt, rfl⟩ := List.getElem?_eq_some_iff.mp hj
    exact List.pairwise_iff_getElem.mp hpairwise i j hilt hjlt hij
      _ (by rw [hc]; rfl) _ (by rw [hd]; rfl)
  rcases Nat.lt_or_gt_of_ne hne with hij | hji
  · exact hlt hv hw hij
  · intro pv pe hcovers hother
    exact hlt hw hv hji pv pe hother hcovers

/-- An area that is not empty has a first PE. -/
theorem SnapState.Reserves.covers_first {s : SnapState} (hs : s.Reserves)
    {i : Nat} {v : Volume} {c : Cow} (hv : s.Snapshot i v c)
    (hpos : 0 < c.extent.count) :
    c.extent.Covers c.extent.pv c.extent.start.toNat := by
  have hmem : c.extent ∈ s.reserved :=
    List.mem_filterMap.mpr
      ⟨v, List.mem_of_getElem? hv.1, by rw [hv.2, Option.map_some]⟩
  have hstart := hs.marked.start_nonneg _ (hs.sublist.subset hmem) hpos
  exact ⟨rfl, by omega, by omega⟩

/-- Two areas with the same record on the same PV are the same extent. -/
theorem SnapState.Ok.extent_eq {s : SnapState} (hs : s.Ok) {i j : Nat}
    {v w : Volume} {c d : Cow} (hv : s.Snapshot i v c) (hw : s.Snapshot j w d)
    (hpv : c.extent.pv = d.extent.pv) (hlocation : v.location = w.location) :
    c.extent = d.extent := by
  have hc := hs.tracks v (List.mem_of_getElem? hv.1) c hv.2
  have hd := hs.tracks w (List.mem_of_getElem? hw.1) d hw.2
  obtain ⟨hstart, hcount⟩ := Prod.mk.inj hlocation
  rw [hc.start, hd.start] at hstart
  rw [hc.count, hd.count] at hcount
  cases hce : c.extent
  cases hde : d.extent
  rw [hce, hde] at hpv hstart hcount
  simp only at hpv hstart hcount
  rw [hpv, hstart, hcount]

/-- In every state of every run, the records of the snapshots identify their
COW areas exactly if no two areas on different PVs have the same record and
the record of an empty area is not that of another snapshot. -/
theorem cow_identified_iff {s : SnapState} (hreach : snapSystem.Reachable s) :
    CowIdentified s ↔
      (∀ {i j v w c d}, s.Snapshot i v c → s.Snapshot j w d →
        c.extent.pv ≠ d.extent.pv → v.location ≠ w.location) ∧
      (∀ {i j v w c d}, s.Snapshot i v c → s.Snapshot j w d → i ≠ j →
        v.lv.cowPeCount ≤ 0 → v.location ≠ w.location) := by
  have hok := reachable_snap_ok hreach
  have hreserves := reachable_reserves hreach
  constructor
  · intro hidentified
    constructor
    · intro i j v w c d hv hw hpv hlocation
      exact hpv (congrArg Extent.pv (hidentified.determined hv hw hlocation))
    · intro i j v w c d hv hw hne _ hlocation
      exact hne (hidentified.distinct hv hw hlocation)
  · intro ⟨hpvs, hempty⟩
    have hsame : ∀ {i j v w c d}, s.Snapshot i v c → s.Snapshot j w d →
        v.location = w.location → c.extent = d.extent := by
      intro i j v w c d hv hw hlocation
      refine hok.extent_eq hv hw ?_ hlocation
      by_contra hpv
      exact hpvs hv hw hpv hlocation
    refine ⟨hsame, ?_⟩
    intro i j v w c d hv hw hlocation
    by_contra hne
    have hpos : 0 < v.lv.cowPeCount := by
      by_contra hnot
      exact hempty hv hw hne (by omega) hlocation
    rw [(hok.tracks v (List.mem_of_getElem? hv.1) c hv.2).count] at hpos
    -- the first PE is in both areas
    have hfirst := hreserves.covers_first hv hpos
    have hdisjoint := hreserves.disjoint hv hw hne
    rw [← hsame hv hw hlocation] at hdisjoint
    exact hdisjoint _ _ hfirst hfirst

/-- Two PVs of two PEs, a volume, and three snapshots of it whose areas differ
in their first PE or their size, the last of them on the second PV. -/
def distinctCalls : List SnapCall :=
  [Call.addPv 4096, .addPv 4096, .create 0, .createSnapshot 0 1,
    .createSnapshot 0 1, .createSnapshot 0 2].map SnapCall.call

theorem cow_identified_distinct :
    ∃ s, snapSystem.run snapStart distinctCalls = some s ∧
      s.reserved = [⟨0, 0, 1⟩, ⟨0, 1, 1⟩, ⟨1, 0, 2⟩] ∧ CowIdentified s := by
  have hrun : (snapSystem.run snapStart distinctCalls).isSome = true := by
    decide
  have hacross : ∀ v ∈ (Option.get _ hrun).volumes,
      ∀ w ∈ (Option.get _ hrun).volumes, ∀ c ∈ v.cow, ∀ d ∈ w.cow,
        c.extent.pv ≠ d.extent.pv → v.location ≠ w.location := by
    decide +revert
  have hpos : ∀ v ∈ (Option.get _ hrun).volumes, ∀ c ∈ v.cow,
      0 < v.lv.cowPeCount := by
    clear hacross
    decide +revert
  have hreach : snapSystem.Reachable (Option.get _ hrun) := .get_run rfl hrun
  refine ⟨_, (Option.some_get hrun).symm, rfl, ?_⟩
  refine (cow_identified_iff hreach).mpr ⟨?_, ?_⟩
  · intro i j v w c d ⟨hv, hc⟩ ⟨hw, hd⟩
    exact hacross v (List.mem_of_getElem? hv) w (List.mem_of_getElem? hw)
      c hc d hd
  · intro i j v w c d ⟨hv, hc⟩ _ _ hcount
    exact absurd (hpos v (List.mem_of_getElem? hv) c hc) (by omega)

/-- A snapshot of a volume without LEs. -/
def bareSnapshot (extent : Extent) : Volume :=
  ⟨⟨0, [], some 0, [], extent.start, extent.count⟩, some ⟨0, extent, [], []⟩⟩

/-- Two PVs of one PE, and two snapshots with one PE each. -/
def clashingCalls : List SnapCall :=
  [Call.addPv 2048, .addPv 2048, .create 0, .createSnapshot 0 1,
    .createSnapshot 0 1].map SnapCall.call

/-- The areas are on different PVs and the snapshots have the same record. -/
theorem cow_not_identified_clashing :
    ∃ s, snapSystem.run snapStart clashingCalls = some s ∧
      s.reserved = [⟨0, 0, 1⟩, ⟨1, 0, 1⟩] ∧
      s.volumes.tail.map Volume.location = [(0, 1), (0, 1)] ∧
      ¬ CowIdentified s := by
  have hrun : (snapSystem.run snapStart clashingCalls).isSome = true := by
    decide
  have hfirst : (Option.get _ hrun).volumes[1]? =
      some (bareSnapshot ⟨0, 0, 1⟩) := by
    rfl
  have hsecond : (Option.get _ hrun).volumes[2]? =
      some (bareSnapshot ⟨1, 0, 1⟩) := by
    rfl
  refine ⟨_, (Option.some_get hrun).symm, rfl, rfl, fun hidentified => ?_⟩
  have hsame : 1 = 2 :=
    hidentified.distinct ⟨hfirst, rfl⟩ ⟨hsecond, rfl⟩ rfl
  contradiction

end Lvm
end OsKernel
