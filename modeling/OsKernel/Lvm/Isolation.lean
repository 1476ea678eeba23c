import Mathlib.Data.List.TakeWhile
import OsKernel.Lvm.Volumes

/-!
# Isolation of logical volumes

`lv_map_sector` multiplies the PE number in an `int`.  The product is the
first sector of the PE only below PE `2^20`; from there on it wraps.  So the
volumes of a group are isolated exactly when none of its physical volumes has
more than `2^20` PEs (one terabyte), as far as there can be an LE on it.  From a
physical volume without a bitmap on there is none: the call that looks for one
crashes.
-/

namespace OsKernel
namespace Lvm

open Lib

/-! ## The address computation -/

/-- Below `le_count` the clamp of `lv_map_sector` is not used and the sector's
LE has an entry. -/
theorem lvMapSector_eq {l : Lv} (hl : l.Tabled) {sector : Nat}
    (hsector : (sector : Int) < l.leCount * peSizeSectors) :
    ∃ le, l.leMap[sector / peSizeSectors]? = some le ∧
      lvMapSector l sector = some (le.pvIndex,
        toU64 (wrap32 (le.peStart * peSizeSectors) +
          (sector % peSizeSectors : Nat))) := by
  obtain ⟨⟨-, hmax⟩, hcovered⟩ := hl
  have hindex : ((sector / peSizeSectors : Nat) : Int) < l.leCount := by
    simp only [peSizeSectors, sectorSize] at hsector ⊢
    omega
  have hzero := Int.natCast_nonneg (sector / peSizeSectors)
  have hfits : FitsInt (sector / peSizeSectors : Nat) :=
    ⟨by omega, by omega⟩
  have hlength : sector / peSizeSectors < l.leMap.length := by omega
  refine ⟨l.leMap[sector / peSizeSectors], List.getElem?_eq_getElem hlength, ?_⟩
  have hclamp : ¬ ((sector / peSizeSectors : Nat) : Int) ≥ l.leCount := by omega
  have hnonneg : ¬ ((sector / peSizeSectors : Nat) : Int) < 0 := by omega
  simp only [lvMapSector, wrap32_of_fitsInt hfits, hclamp, hnonneg, if_false,
    Int.toNat_natCast, List.getElem?_eq_getElem hlength, Option.map_some]

/-- Below PE `2^20` the `int` product does not wrap. -/
theorem physical_sector_eq {peStart : Int} {offset : Nat} (hpos : 0 ≤ peStart)
    (hlt : peStart < 2 ^ 20) (hoffset : offset < peSizeSectors) :
    toU64 (wrap32 (peStart * peSizeSectors) + offset) =
      peStart.toNat * peSizeSectors + offset := by
  have hfits : FitsInt (peStart * peSizeSectors) := by
    unfold FitsInt
    simp only [peSizeSectors, sectorSize]
    omega
  simp only [peSizeSectors, sectorSize] at hoffset
  rw [wrap32_of_fitsInt hfits]
  rw [toU64_of_nonneg]
  · simp only [peSizeSectors, sectorSize]
    omega
  · simp only [peSizeSectors, sectorSize]
    omega
  · simp only [peSizeSectors, sectorSize]
    omega

/-- At PE `2^20` the product is negative, and widening it gives a sector far
beyond any disk. -/
theorem physical_sector_wraps :
    toU64 (wrap32 (2 ^ 20 * peSizeSectors) + (0 : Nat)) = 2 ^ 64 - 2 ^ 31 := by
  decide

/-! ## Isolation -/

/-- Every sector of a complete volume maps inside the physical volume it
names, and no two sectors of complete volumes map to the same place. -/
structure VolumesIsolated (s : State) : Prop where
  inside : ∀ (a : Nat) (h : Handle) (sector : Nat),
    s.lvs[a]? = some h → h.complete = true →
    (sector : Int) < h.lv.leCount * peSizeSectors →
    ∃ pv physical p, lvMapSector h.lv sector = some (pv, physical) ∧
      s.vg.pvs[pv]? = some p ∧ physical < p.size
  apart : ∀ (a b : Nat) (h k : Handle) (x y : Nat),
    s.lvs[a]? = some h → s.lvs[b]? = some k →
    h.complete = true → k.complete = true →
    (x : Int) < h.lv.leCount * peSizeSectors →
    (y : Int) < k.lv.leCount * peSizeSectors →
    lvMapSector h.lv x = lvMapSector k.lv y → a = b ∧ x = y

/-- The sizes of the physical volumes before the first one that has no bitmap. -/
def withBitmap (sizes : List Nat) : List Nat :=
  sizes.takeWhile fun size => size / peSizeSectors ≤ 2 ^ 31 - 64

theorem mem_withBitmap_imp {sizes : List Nat} {size : Nat}
    (hsize : size ∈ withBitmap sizes) :
    size / peSizeSectors ≤ 2 ^ 31 - 64 := by
  have hpos := List.mem_takeWhile_imp hsize
  exact of_decide_eq_true hpos

/-- None of them has more than `2^20` PEs. -/
def SmallSizes (sizes : List Nat) : Prop :=
  ∀ size ∈ withBitmap sizes, size / peSizeSectors ≤ 2 ^ 20

/-- In a group of a run, the volumes up to one with LEs are counted there. -/
theorem Vg.MappedUpTo.size_mem {g : Vg} (hcreated : g.AsCreated)
    (hfits : g.SizesFit) {n : Nat} (hupTo : g.MappedUpTo n) {p : Pv}
    (hp : g.pvs[n]? = some p) : p.size ∈ withBitmap (g.pvs.map Pv.size) := by
  obtain ⟨hlength, hmapped⟩ := hupTo
  have hsmall : ∀ size ∈ (g.pvs.take (n + 1)).map Pv.size,
      decide (size / peSizeSectors ≤ 2 ^ 31 - 64) = true := by
    intro size hsize
    obtain ⟨q, hq, rfl⟩ := List.mem_map.mp hsize
    have hmem := List.mem_of_mem_take hq
    have hcount := (hcreated q hmem).mapped_iff.mp (hmapped q hq)
    rw [(hcreated q hmem).peCount_eq, wrap32_natCast (hfits q hmem)] at hcount
    exact decide_eq_true (by omega)
  have hsplit : g.pvs.map Pv.size =
      (g.pvs.take (n + 1)).map Pv.size ++ (g.pvs.drop (n + 1)).map Pv.size := by
    rw [← List.map_append, List.take_append_drop]
  rw [withBitmap, hsplit, List.takeWhile_append_of_pos hsmall]
  refine List.mem_append_left _ (List.mem_map_of_mem ?_)
  rw [List.mem_take_iff_getElem]
  obtain ⟨hlt, rfl⟩ := List.getElem?_eq_some_iff.mp hp
  exact ⟨n, by omega, rfl⟩

theorem Handle.owned_getElem? {h : Handle} {i : Nat} {le : LeMap}
    (hcomplete : h.complete = true) (hi : (i : Int) < h.lv.leCount)
    (hget : h.lv.leMap[i]? = some le) : h.owned[i]? = some le.extent := by
  have hlt : i < h.lv.leCount.toNat := by omega
  simp [Handle.owned, hcomplete, hlt, hget]

/-- Where a sector of a complete volume goes when all physical volumes are
small: into the PE of its LE, which was handed out by the group. -/
theorem lvMapSector_owned {s : State} (hreach : system.Reachable s)
    (hfits : s.vg.SizesFit) (hsmall : SmallSizes (s.vg.pvs.map Pv.size))
    {a : Nat} {h : Handle} {sector : Nat} (hget : s.lvs[a]? = some h) (hcomplete : h.complete = true)
    (hsector : (sector : Int) < h.lv.leCount * peSizeSectors) :
    ∃ (le : LeMap) (p : Pv), h.owned[sector / peSizeSectors]? = some le.extent ∧
      s.vg.pvs[le.pvIndex]? = some p ∧ 0 ≤ le.peStart ∧
      le.peStart + 1 ≤ (p.size / peSizeSectors : Nat) ∧
      lvMapSector h.lv sector = some (le.pvIndex,
        le.peStart.toNat * peSizeSectors + sector % peSizeSectors) := by
  have htabled :=
    (reachable_ok hreach h (List.mem_of_getElem? hget)).tabled hcomplete
  have hconsistent := reachable_consistent hreach hfits
  obtain ⟨le, hle, hmap⟩ := lvMapSector_eq htabled hsector
  have hindex : ((sector / peSizeSectors : Nat) : Int) < h.lv.leCount := by
    simp only [peSizeSectors, sectorSize] at hsector ⊢
    omega
  have howned := Handle.owned_getElem? hcomplete hindex hle
  -- The LE's extent was handed out by the group, so it is inside its volume.
  have hmem : le.extent ∈ s.owned :=
    List.mem_flatMap.mpr
      ⟨h, List.mem_of_getElem? hget, List.mem_of_getElem? howned⟩
  obtain ⟨hstart, -, p, hp, hend⟩ :=
    hconsistent.inside _ ((reachable_owned_subperm hreach).subset hmem)
  change 0 ≤ le.peStart at hstart
  rw [(hconsistent.valid p (List.mem_of_getElem? hp)).peCount_eq] at hend
  have hlimit := hsmall p.size ((reachable_mappedUpTo hreach _ hmem).size_mem
    (reachable_asCreated hreach) hfits hp)
  refine ⟨le, p, howned, hp, hstart, hend, ?_⟩
  have hlt : le.peStart < 2 ^ 20 := by
    simp only [LeMap.extent] at hend
    omega
  rw [hmap, physical_sector_eq hstart hlt (Nat.mod_lt _ (by decide))]

theorem volumesIsolated_of_small {s : State} (hreach : system.Reachable s)
    (hfits : s.vg.SizesFit) (hsmall : SmallSizes (s.vg.pvs.map Pv.size)) : VolumesIsolated s := by
  constructor
  · intro a h sector hget hcomplete hsector
    obtain ⟨le, p, -, hp, hstart, hend, hmap⟩ :=
      lvMapSector_owned hreach hfits hsmall hget hcomplete hsector
    refine ⟨_, _, p, hmap, hp, ?_⟩
    simp only [peSizeSectors, sectorSize] at hend ⊢
    omega
  · intro a b h k x y hh hk hhc hkc hx hy heq
    obtain ⟨le, p, hle, -, hstart, -, hmapx⟩ :=
      lvMapSector_owned hreach hfits hsmall hh hhc hx
    obtain ⟨le', p', hle', -, hstart', -, hmapy⟩ :=
      lvMapSector_owned hreach hfits hsmall hk hkc hy
    rw [hmapx, hmapy, Option.some.injEq, Prod.mk.injEq] at heq
    obtain ⟨hpv, hphysical⟩ := heq
    have hoffset : le.peStart = le'.peStart ∧
        x % peSizeSectors = y % peSizeSectors := by
      simp only [peSizeSectors, sectorSize] at hphysical ⊢
      omega
    -- The two LEs name one PE, so they are one entry of one table.
    have hsame : a = b ∧ x / peSizeSectors = y / peSizeSectors := by
      by_contra hne
      have hsymm : ∀ {e f : Extent}, e.Disjoint f → f.Disjoint e :=
        fun h pv pe hf he => h pv pe he hf
      obtain ⟨sub, hperm, hsublist⟩ := reachable_owned_subperm hreach
      have hdisjoint : s.owned.Pairwise Extent.Disjoint :=
        (hperm.pairwise_iff hsymm).mp
          ((reachable_consistent hreach hfits).disjoint.sublist hsublist)
      have hapart := pairwise_flatMap_apart hsymm Handle.owned hdisjoint
        hh hk hle hle' hne
      have hpe : ((le.peStart.toNat : Nat) : Int) = le.peStart := by omega
      refine hapart le.pvIndex le.peStart.toNat ?_ ?_
      · refine ⟨rfl, ?_, ?_⟩ <;> simp only [LeMap.extent] <;> omega
      · refine ⟨hpv.symm, ?_, ?_⟩ <;> simp only [LeMap.extent] <;> omega
    refine ⟨hsame.1, ?_⟩
    rw [← Nat.div_add_mod x peSizeSectors, ← Nat.div_add_mod y peSizeSectors,
      hsame.2, hoffset.2]

/-! ## A group with a large volume -/

/-- A free slot for another physical volume. -/
theorem exists_addPv {s : State} (hreach : system.Reachable s)
    (hroom : s.vg.pvs.length < maxPvs) {size : Nat} (hu64 : size < 2 ^ 64) :
    ∃ t, system.Reachable t ∧ t.vg.pvs = s.vg.pvs ++ [pvCreate size] ∧
      t.vg.history = s.vg.history ∧ t.lvs = s.lvs := by
  obtain ⟨g, hg⟩ : ∃ g, vgAddPv s.vg (pvCreate size) = some g :=
    ⟨_, if_neg (by omega)⟩
  obtain ⟨hpvs, hkept, -, -⟩ := vgAddPv_some hg
  have hrange : (Call.addPv size).InRange := hu64
  have hstep : system.step s (.addPv size) = some { s with vg := g } := by
    simp [system, step, hrange, perform, hg, State.after]
  exact ⟨_, hreach.next hstep, hpvs, hkept, rfl⟩

/-- Any sizes can be added to a group, up to `MAX_PVS` volumes. -/
theorem exists_addPvs {s : State} (hreach : system.Reachable s)
    {sizes : List Nat} (hlength : s.vg.pvs.length + sizes.length ≤ maxPvs)
    (hfits : ∀ size ∈ sizes, size / peSizeSectors < 2 ^ 31) :
    ∃ t, system.Reachable t ∧
      t.vg.pvs.map Pv.size = s.vg.pvs.map Pv.size ++ sizes ∧
      t.vg.history = s.vg.history ∧ t.lvs = s.lvs := by
  induction sizes generalizing s with
  | nil => exact ⟨s, hreach, (List.append_nil _).symm, rfl, rfl⟩
  | cons size rest ih =>
      rw [List.length_cons] at hlength
      have hu64 : size < 2 ^ 64 := by
        have := hfits size List.mem_cons_self
        simp only [peSizeSectors, sectorSize] at this
        omega
      obtain ⟨t, htreach, hpvs, hhistory, hlvs⟩ :=
        exists_addPv hreach (by omega) hu64
      obtain ⟨u, hureach, husizes, huhistory, hulvs⟩ :=
        ih htreach (by rw [hpvs, List.length_append, List.length_singleton]; omega)
          (fun x hx => hfits x (List.mem_cons_of_mem _ hx))
      refine ⟨u, hureach, ?_, huhistory.trans hhistory, hulvs.trans hlvs⟩
      rw [husizes, hpvs, List.map_append, List.append_assoc]
      rfl

/-- The volumes of the group are small enough to have their bitmaps. -/
def Vg.HaveBitmaps (g : Vg) : Prop :=
  ∀ p ∈ g.pvs, p.size / peSizeSectors ≤ 2 ^ 31 - 64

theorem Vg.HaveBitmaps.sizesFit {g : Vg} (h : g.HaveBitmaps) : g.SizesFit := by
  intro p hp
  have := h p hp
  omega

theorem Vg.HaveBitmaps.mapped {g : Vg} (h : g.HaveBitmaps)
    (hcreated : g.AsCreated) : ∀ p ∈ g.pvs, p.Mapped := by
  intro p hp
  have hsize := h p hp
  rw [(hcreated p hp).mapped_iff, (hcreated p hp).peCount_eq,
    wrap32_natCast (h.sizesFit p hp)]
  omega

theorem vgAllocSafe_of_mapped {pvs : List Pv} (hpvs : ∀ p ∈ pvs, p.Mapped)
    (count : Int) : vgAllocSafe count pvs = true := by
  induction pvs with
  | nil => rfl
  | cons p rest ih =>
      have hp := hpvs p List.mem_cons_self
      have hrest := ih fun q hq => hpvs q (List.mem_cons_of_mem p hq)
      simp [vgAllocSafe, hp, hrest]

/-- While some volume has a free PE, `lv_create(1)` makes a complete volume
out of one of the group's free PEs. -/
theorem exists_create_one {s : State} (hreach : system.Reachable s)
    (hbitmaps : s.vg.HaveBitmaps) (hfree : ∃ p ∈ s.vg.pvs, 1 ≤ p.freePe) :
    ∃ t, system.Reachable t ∧
      t.vg.pvs.map Pv.size = s.vg.pvs.map Pv.size ∧
      (t.vg.pvs.map Pv.freePe).sum = (s.vg.pvs.map Pv.freePe).sum - 1 ∧
      ∃ e, t.vg.history = s.vg.history ++ [e] ∧ t.owned = s.owned ++ [e] := by
  have hconsistent := reachable_consistent hreach hbitmaps.sizesFit
  have hsafe := vgAllocSafe_of_mapped
    (hbitmaps.mapped (reachable_asCreated hreach)) 1
  cases halloc : vgAllocPe s.vg 1 with
  | none =>
      exfalso
      obtain ⟨p, hp, hpos⟩ := hfree
      obtain ⟨_, _, hsome⟩ := pvAlloc_one_isSome (hconsistent.valid p hp) hpos
      have hnone := vgAllocPvs_none (Option.map_eq_none_iff.mp halloc) p hp hpos
      rw [hnone] at hsome
      contradiction
  | some result =>
      obtain ⟨g, index, start⟩ := result
      have hles : allocLes 1 s.vg = (g, [⟨index, start⟩]) := by
        simp [allocLes, halloc]
      have hlesSafe : allocLesSafe 1 s.vg = true := by
        simp [allocLesSafe, hsafe, halloc]
      obtain ⟨l, hl⟩ : ∃ l : Lv, l =
          { leCount := 1, leMap := [⟨index, start⟩], origin := none,
            cowBitmap := [], cowPeStart := 0, cowPeCount := 0 } := ⟨_, rfl⟩
      have hrange : (Call.create 1).InRange := by decide
      have hstep : system.step s (.create 1) = some
          { vg := g, lvs := s.lvs ++ [⟨l, true⟩] } := by
        simp [system, step, hrange, perform, hlesSafe, lvCreate, hles, hl,
          State.after]
      have hsizes := (VgChange.allocPe 1 Nat.one_pos hsafe halloc).sizes
      have hsum := (vgAllocPe_sums Nat.one_pos hsafe halloc hconsistent).2
      obtain ⟨p, changed, hp, hpv, rfl⟩ := vgAllocPe_some halloc
      refine ⟨_, hreach.next hstep, ?_, hsum, ⟨index, start, 1⟩, rfl, ?_⟩
      · -- The number of volumes is the same, so nothing was appended.
        obtain ⟨added, hadded⟩ := hsizes
        have hlen := congrArg List.length hadded
        simp only [List.length_map, List.length_set, List.length_append] at hlen
        have hnil : added = [] := List.eq_nil_of_length_eq_zero (by omega)
        rw [hadded, hnil, List.append_nil]
      · simp [State.owned, Handle.owned, LeMap.extent, hl]

theorem Vg.HaveBitmaps.of_sizes {g g' : Vg} (h : g.HaveBitmaps)
    (hsizes : g'.pvs.map Pv.size = g.pvs.map Pv.size) : g'.HaveBitmaps := by
  intro p hp
  have hmem : p.size ∈ g.pvs.map Pv.size := hsizes ▸ List.mem_map_of_mem hp
  obtain ⟨q, hq, hsize⟩ := List.mem_map.mp hmem
  rw [← hsize]
  exact h q hq

/-- Creating volumes of one LE until the group is full: every PE then belongs
to a complete volume. -/
theorem exists_full {s : State} (hreach : system.Reachable s)
    (hbitmaps : s.vg.HaveBitmaps) (howned : s.vg.history ⊆ s.owned) :
    ∃ t, system.Reachable t ∧
      t.vg.pvs.map Pv.size = s.vg.pvs.map Pv.size ∧
      t.vg.history ⊆ t.owned ∧ ∀ p ∈ t.vg.pvs, ¬ 1 ≤ p.freePe := by
  -- Every volume created takes one of the free PEs.
  generalize hn : (s.vg.pvs.map Pv.freePe).sum.toNat = n
  induction n using Nat.strongRecOn generalizing s with
  | ind n ih =>
      by_cases hfree : ∃ p ∈ s.vg.pvs, 1 ≤ p.freePe
      · obtain ⟨t, htreach, hsizes, hsum, e, hhistory, htowned⟩ :=
          exists_create_one hreach hbitmaps hfree
        have htbitmaps := hbitmaps.of_sizes hsizes
        have hpos : 0 ≤ (t.vg.pvs.map Pv.freePe).sum :=
          (reachable_consistent htreach htbitmaps.sizesFit).counter_bounds.1
        have htown : t.vg.history ⊆ t.owned := by
          rw [hhistory, htowned]
          exact List.append_subset.mpr
            ⟨fun x hx => List.mem_append_left _ (howned hx),
              List.subset_append_right _ _⟩
        obtain ⟨u, hureach, husizes, huowned, hufree⟩ :=
          ih _ (by omega) htreach htbitmaps htown rfl
        exact ⟨u, hureach, husizes.trans hsizes, huowned, hufree⟩
      · refine ⟨s, hreach, rfl, howned, ?_⟩
        intro p hp hpos
        exact hfree ⟨p, hp, hpos⟩

/-- An extent owned through a handle is that of an LE of a complete volume. -/
theorem Handle.exists_le_of_mem_owned {h : Handle} {e : Extent}
    (he : e ∈ h.owned) :
    h.complete = true ∧ ∃ (i : Nat) (le : LeMap), (i : Int) < h.lv.leCount ∧
      h.lv.leMap[i]? = some le ∧ e = le.extent := by
  unfold Handle.owned at he
  split at he
  next hcomplete =>
    obtain ⟨le, hle, rfl⟩ := List.mem_map.mp he
    obtain ⟨i, hi⟩ := List.getElem?_of_mem hle
    rw [List.getElem?_take] at hi
    split at hi
    next hlt => exact ⟨hcomplete, i, le, by omega, hi, rfl⟩
    next => contradiction
  next => exact absurd he List.not_mem_nil

/-- Every PE of a volume whose counter says it is full was handed out. -/
theorem Vg.Consistent.exists_extent_of_full {g : Vg} (hg : g.Consistent)
    {index : Nat} {p : Pv} (hp : g.pvs[index]? = some p)
    (hfull : ¬ 1 ≤ p.freePe) {pe : Nat} (hpe : (pe : Int) < p.peCount) :
    ∃ e ∈ g.history, e.Covers index pe := by
  apply (hg.recorded index p hp pe).mp
  by_contra hclear
  have hmem : pe ∈ p.clearPes := by
    rw [Pv.clearPes, Finset.mem_filter, Finset.mem_range]
    exact ⟨by omega, by simpa using hclear⟩
  have hpos := Finset.card_pos.mpr ⟨_, hmem⟩
  apply hfull
  rw [(hg.valid p (List.mem_of_getElem? hp)).freePe_eq]
  omega

/-- The first sector of an LE on PE `2^20` maps beyond every physical
volume. -/
theorem not_volumesIsolated_of_le {s : State} (hreach : system.Reachable s)
    (hfits : s.vg.SizesFit) {a i : Nat} {h : Handle} {le : LeMap}
    (ha : s.lvs[a]? = some h) (hcomplete : h.complete = true)
    (hi : (i : Int) < h.lv.leCount) (hle : h.lv.leMap[i]? = some le)
    (hpe : le.peStart = 2 ^ 20) : ¬ VolumesIsolated s := by
  intro hisolated
  have hsector : ((i * peSizeSectors : Nat) : Int) <
      h.lv.leCount * peSizeSectors := by
    simp only [peSizeSectors, sectorSize]
    omega
  obtain ⟨pv, physical, q, hinside, hq, hlt⟩ :=
    hisolated.inside a h (i * peSizeSectors) ha hcomplete hsector
  obtain ⟨le', hle', hmap⟩ := lvMapSector_eq
    ((reachable_ok hreach h (List.mem_of_getElem? ha)).tabled hcomplete) hsector
  rw [Nat.mul_div_cancel _ (by decide), hle, Option.some.injEq] at hle'
  subst hle'
  rw [Nat.mul_mod_left, hpe, physical_sector_wraps] at hmap
  rw [hmap, Option.some.injEq, Prod.mk.injEq] at hinside
  have hqfits := hfits q (List.mem_of_getElem? hq)
  simp only [peSizeSectors, sectorSize] at hqfits
  omega

/-- Once a group whose volumes have their bitmaps is full, some volume has an LE
on PE `2^20` of a large physical volume. -/
theorem exists_le_on_wrapping_pe {sizes : List Nat}
    (hlength : sizes.length ≤ maxPvs)
    (hbitmaps : ∀ size ∈ sizes, size / peSizeSectors ≤ 2 ^ 31 - 64) {size : Nat}
    (hsize : size ∈ sizes) (hlarge : 2 ^ 20 < size / peSizeSectors) :
    ∃ s, system.Reachable s ∧ s.vg.pvs.map Pv.size = sizes ∧
      ∃ (a i : Nat) (h : Handle) (le : LeMap), s.lvs[a]? = some h ∧
        h.complete = true ∧ (i : Int) < h.lv.leCount ∧
        h.lv.leMap[i]? = some le ∧ le.peStart = 2 ^ 20 := by
  obtain ⟨s, hreach, hsizes, hhistory, -⟩ :=
    exists_addPvs (ActionSystem.Reachable.start rfl) (by simpa [vgCreate] using hlength)
      (fun size hmem => by have := hbitmaps size hmem; omega)
  obtain hsizes : s.vg.pvs.map Pv.size = sizes := hsizes
  obtain hhistory : s.vg.history = [] := hhistory
  have hsbitmaps : s.vg.HaveBitmaps := fun p hp =>
    hbitmaps p.size (hsizes ▸ List.mem_map_of_mem hp)
  obtain ⟨t, htreach, htsizes, howned, hfull⟩ := exists_full hreach hsbitmaps
    (by rw [hhistory]; exact List.nil_subset _)
  have hconsistent := reachable_consistent htreach
    (hsbitmaps.of_sizes htsizes).sizesFit
  refine ⟨t, htreach, htsizes.trans hsizes, ?_⟩
  -- The large volume, as it is in the full group.
  obtain ⟨p, hp, rfl⟩ : ∃ p ∈ t.vg.pvs, p.size = size := by
    rw [← hsizes, ← htsizes] at hsize
    exact List.mem_map.mp hsize
  obtain ⟨index, hindex⟩ := List.getElem?_of_mem hp
  have hcount := (hconsistent.valid p hp).peCount_eq
  obtain ⟨e, he, hcovers⟩ := hconsistent.exists_extent_of_full hindex
    (hfull p hp) (show ((2 ^ 20 : Nat) : Int) < p.peCount by omega)
  -- The LE behind the extent of PE `2^20`; an LE is one PE long.
  obtain ⟨h, hh, heowned⟩ := List.mem_flatMap.mp (howned he)
  obtain ⟨hcomplete, i, le, hi, hle, rfl⟩ :=
    Handle.exists_le_of_mem_owned heowned
  obtain ⟨a, ha⟩ := List.getElem?_of_mem hh
  obtain ⟨-, hge, hlt⟩ := hcovers
  simp only [LeMap.extent] at hge hlt
  exact ⟨a, i, h, le, ha, hcomplete, hi, hle, by omega⟩

/-- The volumes without a bitmap and those behind them are added when the others
are full. -/
theorem exists_not_volumesIsolated {sizes : List Nat}
    (hlength : sizes.length ≤ maxPvs)
    (hfits : ∀ size ∈ sizes, size / peSizeSectors < 2 ^ 31)
    (hlarge : ¬ SmallSizes sizes) :
    ∃ s, system.Reachable s ∧ s.vg.pvs.map Pv.size = sizes ∧
      ¬ VolumesIsolated s := by
  unfold SmallSizes at hlarge
  push Not at hlarge
  obtain ⟨size, hsize, hlt⟩ := hlarge
  have hsplit : withBitmap sizes ++ sizes.dropWhile
      (fun size => size / peSizeSectors ≤ 2 ^ 31 - 64) = sizes :=
    List.takeWhile_append_dropWhile
  have hlengths := congrArg List.length hsplit
  rw [List.length_append] at hlengths
  obtain ⟨s, hreach, hsizes, a, i, h, le, ha, hcomplete, hi, hle, hpe⟩ :=
    exists_le_on_wrapping_pe (show (withBitmap sizes).length ≤ maxPvs by omega)
      (fun _ => mem_withBitmap_imp) hsize hlt
  have hcount := congrArg List.length hsizes
  rw [List.length_map] at hcount
  -- adding the rest of the volumes changes no logical volume
  obtain ⟨t, htreach, htsizes, -, hlvs⟩ := exists_addPvs hreach
    (show s.vg.pvs.length + _ ≤ maxPvs by omega)
    (fun x hx => hfits x (hsplit ▸ List.mem_append_right _ hx))
  rw [hsizes, hsplit] at htsizes
  refine ⟨t, htreach, htsizes, ?_⟩
  have htfits : t.vg.SizesFit := fun p hp =>
    hfits p.size (htsizes ▸ List.mem_map_of_mem hp)
  exact not_volumesIsolated_of_le htreach htfits (hlvs ▸ ha) hcomplete hi hle hpe

/-- The volumes of a group are isolated in every run exactly when no physical
volume before the first one without a bitmap has more than `2^20` PEs. -/
theorem volumesIsolated_iff {sizes : List Nat}
    (hlength : sizes.length ≤ maxPvs)
    (hfits : ∀ size ∈ sizes, size / peSizeSectors < 2 ^ 31) :
    (∀ s, system.Reachable s → s.vg.pvs.map Pv.size = sizes →
      VolumesIsolated s) ↔
    ∀ size ∈ withBitmap sizes, size / peSizeSectors ≤ 2 ^ 20 := by
  constructor
  · intro hall
    by_contra hlarge
    obtain ⟨s, hreach, hsizes, hnot⟩ :=
      exists_not_volumesIsolated hlength hfits hlarge
    exact hnot (hall s hreach hsizes)
  · intro hsmall s hreach hsizes
    apply volumesIsolated_of_small hreach
    · intro p hp
      exact hfits p.size (hsizes ▸ List.mem_map_of_mem hp)
    · rw [hsizes]
      exact hsmall

/-- A group of one 10 GB and one 5 GB volume. -/
theorem volumesIsolated_iff_fifteen_gigabytes :
    (∀ s, system.Reachable s →
      s.vg.pvs.map Pv.size = [10240 * 2048, 5120 * 2048] →
      VolumesIsolated s) ↔
    ∀ size ∈ [10240 * 2048, 5120 * 2048], size / peSizeSectors ≤ 2 ^ 20 :=
  volumesIsolated_iff (by decide) (by decide)

/-- One PE more than a terabyte is enough to break isolation. -/
theorem not_volumesIsolated_terabyte :
    ¬ ∀ s, system.Reachable s →
      s.vg.pvs.map Pv.size = [(2 ^ 20 + 1) * 2048] → VolumesIsolated s := by
  intro hall
  have hlarge : ¬ SmallSizes [(2 ^ 20 + 1) * 2048] := by
    simp [SmallSizes, withBitmap, peSizeSectors, sectorSize]
  obtain ⟨s, hreach, hsizes, hnot⟩ :=
    exists_not_volumesIsolated (by decide) (by decide) hlarge
  exact hnot (hall s hreach hsizes)

end Lvm
end OsKernel
