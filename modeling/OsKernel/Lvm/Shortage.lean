import OsKernel.Lib.Totals
import OsKernel.Lvm.Extents
import OsKernel.Lvm.Isolation

/-!
# When a volume group runs out of extents

`lv_create` and `lv_extend` take their PEs one at a time and stop at the first
that is not there.  What they took by then stays taken.  `lv_create` keeps the
requested `le_count` with the zeros of `calloc` in the rest of the table, so the
missing LEs all map to PE 0 of the first volume; `lv_extend` returns `-1`
without giving anything back.  If the new LE count would not be an `int`,
`lv_extend` moreover loses the table before it looks for the first PE.

A group counts as `Held` when each of its volumes records some set of allocated
PEs, which is so in every reachable state as long as the volumes have their
bitmaps.  `Vg.Takes` says what a number of allocations does to such a group.
-/

namespace OsKernel
namespace Lvm

open Lib
open Lib.FirstFit

/-! ## Groups that record what is allocated -/

/-- The bitmap and the counter of every volume record a set of allocated
PEs. -/
def Vg.Held (g : Vg) : Prop := ∀ p ∈ g.pvs, ∃ allocated, p.Holds allocated

/-- The free PEs of the group; a volume whose PE count is negative as an `int`
has none. -/
def Vg.freePes (g : Vg) : Nat := (g.pvs.map fun p => p.freePe.toNat).sum

/-- The bit of the PE an LE is mapped to is set. -/
def Vg.Taken (g : Vg) (le : LeMap) : Prop :=
  ∃ p pe, g.pvs[le.pvIndex]? = some p ∧ le.peStart = (pe : Nat) ∧
    Bitmap.test p.peBitmap pe = true

/-- The group `g'` is `g` with the PEs of `les` taken, which were free and are
all different. -/
structure Vg.Takes (g g' : Vg) (les : List LeMap) : Prop where
  held : g'.Held
  fresh : ∀ le ∈ les, ¬ g.Taken le
  nodup : les.Nodup
  taken_iff : ∀ le, g'.Taken le ↔ g.Taken le ∨ le ∈ les
  freePes_add : g'.freePes + les.length = g.freePes

theorem Vg.Takes.refl {g : Vg} (hg : g.Held) : g.Takes g [] where
  held := hg
  fresh := by simp
  nodup := List.nodup_nil
  taken_iff := by simp
  freePes_add := by simp

theorem Vg.Takes.trans {g g' g'' : Vg} {les les' : List LeMap}
    (h : g.Takes g' les) (h' : g'.Takes g'' les') :
    g.Takes g'' (les ++ les') where
  held := h'.held
  fresh := by
    intro le hle
    rcases List.mem_append.mp hle with hfirst | hsecond
    · exact h.fresh le hfirst
    · intro htaken
      exact h'.fresh le hsecond ((h.taken_iff le).mpr (Or.inl htaken))
  nodup := by
    refine List.nodup_append.mpr ⟨h.nodup, h'.nodup, ?_⟩
    rintro le hfirst _ hsecond rfl
    exact h'.fresh le hsecond ((h.taken_iff le).mpr (Or.inr hfirst))
  taken_iff := by
    intro le
    rw [h'.taken_iff, h.taken_iff, List.mem_append, or_assoc]
  freePes_add := by
    have hfirst := h.freePes_add
    have hsecond := h'.freePes_add
    rw [List.length_append]
    omega

/-- A volume that records a set of PEs has room for one as long as its counter
says so. -/
theorem Pv.Holds.pvAlloc_one_isSome {p : Pv} {allocated : Finset Nat}
    (h : p.Holds allocated) (hfree : 1 ≤ p.freePe) :
    ∃ changed start, pvAlloc p 1 = some (changed, start) := by
  rcases pvAlloc_spec p Nat.one_pos with ⟨first, _, hresult⟩ | ⟨_, hnone⟩
  · exact ⟨_, _, hresult⟩
  · exfalso
    -- Without a free PE the set holds all of them.
    have hall : Finset.range p.peCount.toNat ⊆ allocated := by
      intro pe hpe
      rw [Finset.mem_range] at hpe
      by_contra hout
      apply hnone pe (by omega)
      intro slot hle hlt
      obtain rfl : slot = pe := by omega
      show Bitmap.test p.peBitmap slot = false
      rw [← Bool.not_eq_true, h.test_iff]
      exact hout
    have hcard := Finset.card_le_card hall
    have hcount := h.freePe_eq
    rw [Finset.card_range] at hcard
    omega

/-- One PE taken out of one volume. -/
theorem Pv.Holds.pvAlloc_one {p changed : Pv} {allocated : Finset Nat}
    {start : Int} (h : p.Holds allocated)
    (halloc : pvAlloc p 1 = some (changed, start)) :
    ∃ first : Nat, start = first ∧ (∃ now, changed.Holds now) ∧
      Bitmap.test p.peBitmap first = false ∧
      (∀ pe, Bitmap.test changed.peBitmap pe = true ↔
        Bitmap.test p.peBitmap pe = true ∨ pe = first) ∧
      changed.freePe.toNat + 1 = p.freePe.toNat := by
  obtain ⟨first, hstart, hrun, hchanged, hholds⟩ :=
    h.pvAlloc_some Nat.one_pos halloc
  have hfree : changed.freePe = p.freePe - 1 := by
    rw [hchanged]
    rfl
  refine ⟨first, hstart, ⟨_, hholds⟩, hrun first le_rfl (by omega), ?_, ?_⟩
  · intro pe
    rw [hholds.test_iff, h.test_iff, Finset.mem_union, Finset.mem_Ico]
    refine or_congr_right ?_
    omega
  · -- The counter was positive: after the allocation it still counts PEs.
    have hinside := hholds.inside first (by simp)
    have hcard := card_le_of_inside hholds.inside
    have hcount := hholds.freePe_eq
    omega

/-! ## Allocating one PE from the group -/

/-- A failed `vg_alloc_pe(g, 1, ..)`: no volume has a free PE. -/
theorem Vg.Held.freePes_of_none {g : Vg} (hg : g.Held)
    (hnone : vgAllocPe g 1 = none) : g.freePes = 0 := by
  apply List.sum_eq_zero
  intro x hx
  obtain ⟨p, hp, rfl⟩ := List.mem_map.mp hx
  obtain ⟨allocated, hholds⟩ := hg p hp
  by_contra hpos
  have hfree : 1 ≤ p.freePe := by omega
  obtain ⟨_, _, hsome⟩ := hholds.pvAlloc_one_isSome hfree
  rw [vgAllocPvs_none (Option.map_eq_none_iff.mp hnone) p hp hfree] at hsome
  contradiction

/-- A successful one takes one PE that was free. -/
theorem Vg.Held.takes_of_some {g g' : Vg} {index : Nat} {start : Int}
    (hg : g.Held) (halloc : vgAllocPe g 1 = some (g', index, start)) :
    g.Takes g' [⟨index, start⟩] := by
  obtain ⟨p, changed, hp, hpv, rfl⟩ := vgAllocPe_some halloc
  obtain ⟨allocated, hholds⟩ := hg p (List.mem_of_getElem? hp)
  obtain ⟨first, rfl, hnow, hclear, htest, hfree⟩ := hholds.pvAlloc_one hpv
  have hindex : index < g.pvs.length := (List.getElem?_eq_some_iff.mp hp).1
  constructor
  · intro q hq
    rcases List.mem_or_eq_of_mem_set hq with hold | rfl
    · exact hg q hold
    · exact hnow
  · intro le hle
    rw [List.mem_singleton.mp hle]
    rintro ⟨q, pe, hq, hpe, hset⟩
    obtain rfl : p = q := by simpa [hp] using hq
    obtain rfl : first = pe := by simpa using hpe
    rw [hclear] at hset
    contradiction
  · exact List.nodup_singleton _
  · -- a PE is taken afterwards if it was before, or is the one just found
    rintro ⟨pv, peStart⟩
    rw [List.mem_singleton]
    by_cases hsame : index = pv
    · subst hsame
      simp only [Vg.Taken, List.getElem?_set_self hindex, hp, Option.some.injEq,
        exists_and_left, exists_eq_left', LeMap.mk.injEq, true_and, htest]
      constructor
      · rintro ⟨pe, rfl, hset | rfl⟩
        · exact Or.inl ⟨pe, rfl, hset⟩
        · exact Or.inr rfl
      · rintro (⟨pe, rfl, hset⟩ | rfl)
        · exact ⟨pe, rfl, Or.inl hset⟩
        · exact ⟨first, rfl, Or.inr rfl⟩
    · have hne : (⟨pv, peStart⟩ : LeMap) ≠ ⟨index, first⟩ := by
        intro heq
        exact hsame (congrArg LeMap.pvIndex heq).symm
      simp only [Vg.Taken, List.getElem?_set_ne hsame, hne, or_false]
  · have hsum := sum_map_set_add (fun p : Pv => p.freePe.toNat) hp changed
    simp only [Vg.freePes, List.length_singleton]
    omega

/-- The allocation loop takes as many PEs as there are, up to the number asked
for. -/
theorem allocLes_takes (remaining : Nat) {g : Vg} (hg : g.Held) :
    g.Takes (allocLes remaining g).1 (allocLes remaining g).2 ∧
      (allocLes remaining g).2.length = min remaining g.freePes := by
  induction remaining generalizing g with
  | zero => exact ⟨Vg.Takes.refl hg, by simp [allocLes]⟩
  | succ remaining ih =>
      simp only [allocLes]
      split
      next hnone =>
        rw [hg.freePes_of_none hnone]
        exact ⟨Vg.Takes.refl hg, by simp⟩
      next g' index start halloc =>
        have hone := hg.takes_of_some halloc
        obtain ⟨hrest, hlength⟩ := ih hone.held
        refine ⟨hone.trans hrest, ?_⟩
        have hfree := hone.freePes_add
        simp only [List.length_cons, List.length_nil] at hlength hfree ⊢
        omega

/-- Nothing happens to a full group. -/
theorem Vg.Held.allocLes_of_full {g : Vg} (hg : g.Held) (hfull : g.freePes = 0)
    (remaining : Nat) : allocLes remaining g = (g, []) := by
  have hnone : vgAllocPe g 1 = none := by
    rw [Option.eq_none_iff_forall_ne_some]
    rintro ⟨g', index, start⟩ halloc
    have hfree := (hg.takes_of_some halloc).freePes_add
    rw [List.length_singleton] at hfree
    omega
  cases remaining with
  | zero => rfl
  | succ remaining => simp only [allocLes, hnone]

/-- A change of the group keeps the sets that its volumes record; nothing is
allocated from a volume without a bitmap. -/
theorem VgChange.holds {g g' : Vg} (h : VgChange g g')
    (hg : ∀ p ∈ g.pvs, p.Mapped → ∃ allocated, p.Holds allocated) :
    ∀ p ∈ g'.pvs, p.Mapped → ∃ allocated, p.Holds allocated := by
  cases h with
  | addPv sizeSectors hadd =>
      obtain ⟨hpvs, -, -, -⟩ := vgAddPv_some hadd
      intro p hp hmapped
      rw [hpvs, List.mem_append, List.mem_singleton] at hp
      rcases hp with hold | rfl
      · exact hg p hold hmapped
      · exact ⟨∅, pvCreate_holds hmapped⟩
  | allocPe count hcount hsafe halloc =>
      obtain ⟨p, changed, hp, hpv, rfl⟩ := vgAllocPe_some halloc
      obtain ⟨allocated, hholds⟩ := hg p (List.mem_of_getElem? hp)
        (vgAllocPe_mapped hsafe halloc hp)
      obtain ⟨_, _, _, _, hnow⟩ := hholds.pvAlloc_some hcount hpv
      intro q hq hmapped
      rcases List.mem_or_eq_of_mem_set hq with hold | rfl
      · exact hg q hold hmapped
      · exact ⟨_, hnow⟩

/-- The groups of runs are held as long as no volume has more than `2 ^ 31 - 64`
PEs. -/
theorem reachable_held {s : State} (hreach : system.Reachable s)
    (hsmall : ∀ p ∈ s.vg.pvs, p.peCount ≤ 2 ^ 31 - 64) : s.vg.Held := by
  have hholds := reachable_of_vgChange
    (P := fun g => ∀ p ∈ g.pvs, p.Mapped → ∃ allocated, p.Holds allocated)
    (fun p hp => absurd hp List.not_mem_nil) (fun _ _ h => h.holds) hreach
  intro p hp
  exact hholds p hp
    ((reachable_asCreated hreach p hp).mapped_iff.mpr (hsmall p hp))

/-! ## Volumes made from a group -/

/-- A volume that `lv_create` returned, with the extents `vg_alloc_pe` returned
during that call. -/
structure Created where
  lv : Lv
  allocated : List Extent

/-- The table entries of the LEs below `le_count`. -/
def Created.les (v : Created) : List LeMap :=
  v.lv.leMap.take v.lv.leCount.toNat

/-- A sequence of `lv_create` calls with the given LE counts. -/
def lvCreates : Vg → List Int → Vg × List Created
  | g, [] => (g, [])
  | g, leCount :: rest =>
      let (g', l, _) := lvCreate g leCount
      let (last, lvs) := lvCreates g' rest
      (last, ⟨l, g'.history.drop g.history.length⟩ :: lvs)

/-- Every LE below `le_count` maps to a PE allocated for its volume, and no two
LEs map to the same PE. -/
structure OwnStorageOnly (lvs : List Created) : Prop where
  owned : ∀ v ∈ lvs, ∀ i : Nat, (i : Int) < v.lv.leCount →
    ∃ le, v.lv.leMap[i]? = some le ∧ le.extent ∈ v.allocated
  unshared : (lvs.flatMap Created.les).Nodup

theorem LeMap.extent_injective : Function.Injective LeMap.extent := by
  rintro ⟨pv, start⟩ ⟨pv', start'⟩ heq
  simp only [LeMap.extent, Extent.mk.injEq] at heq
  rw [heq.1, heq.2.1]

/-- The volume one call of `lv_create` returns. -/
def createdBy (g : Vg) (leCount : Int) : Created :=
  ⟨(lvCreate g leCount).2.1,
    (lvCreate g leCount).1.history.drop g.history.length⟩

theorem lvCreates_cons (g : Vg) (leCount : Int) (rest : List Int) :
    (lvCreates g (leCount :: rest)).2 =
      createdBy g leCount :: (lvCreates (lvCreate g leCount).1 rest).2 := rfl

theorem createdBy_allocated (g : Vg) (leCount : Int) :
    (createdBy g leCount).allocated =
      (allocLes leCount.toNat g).2.map LeMap.extent := by
  rw [createdBy, lvCreate_vg, allocLes_history, List.drop_left]

/-- The table of a new volume has the PEs allocated for it and then zeros. -/
theorem createdBy_les {g : Vg} (hg : g.Held) (leCount : Int) :
    (createdBy g leCount).les = (createdBy g leCount).lv.leMap ∧
      (createdBy g leCount).les = (allocLes leCount.toNat g).2 ++
        List.replicate (leCount.toNat - g.freePes) ⟨0, 0⟩ := by
  have hlength := (allocLes_takes leCount.toNat hg).2
  have hmissing : leCount.toNat - (allocLes leCount.toNat g).2.length =
      leCount.toNat - g.freePes := by omega
  have hall : (createdBy g leCount).les = (createdBy g leCount).lv.leMap := by
    apply List.take_of_length_le
    simp only [createdBy, lvCreate, List.length_append, List.length_replicate]
    omega
  refine ⟨hall, hall.trans ?_⟩
  simp only [createdBy, lvCreate, hmissing]

/-- A volume made with shortage: a missing LE maps to PE 0 of the first volume,
which is not the volume's own or is its own LE's already. -/
theorem not_ownStorageOnly_of_short {g : Vg} (hg : g.Held) {leCount : Int}
    (hshort : g.freePes < leCount.toNat) (others : List Created) :
    ¬ OwnStorageOnly (createdBy g leCount :: others) := by
  rintro ⟨howned, hunshared⟩
  obtain ⟨hall, hles⟩ := createdBy_les hg leCount
  have hlength := (allocLes_takes leCount.toNat hg).2
  obtain ⟨missing, hmissing⟩ : ∃ missing,
      leCount.toNat - g.freePes = missing + 1 :=
    ⟨leCount.toNat - g.freePes - 1, by omega⟩
  rw [hmissing, List.replicate_succ] at hles
  have hcount : (createdBy g leCount).lv.leCount = leCount := rfl
  obtain ⟨le, hget, hmem⟩ := howned _ (List.mem_cons_self ..) g.freePes
    (by rw [hcount]; omega)
  -- The first missing LE has a zero entry.
  have hzero : le = ⟨0, 0⟩ := by
    rw [← hall, hles, List.getElem?_append_right (by omega)] at hget
    have hat : g.freePes - (allocLes leCount.toNat g).2.length = 0 := by omega
    rw [hat] at hget
    exact (Option.some.inj hget).symm
  subst hzero
  rw [createdBy_allocated, List.mem_map_of_injective LeMap.extent_injective]
    at hmem
  rw [List.flatMap_cons, hles] at hunshared
  have hnodup := (List.nodup_append.mp hunshared).1
  exact (List.nodup_append.mp hnodup).2.2 _ hmem _ (List.mem_cons_self ..) rfl

/-- As long as the group has enough free PEs, the tables hold what was taken
out of it. -/
theorem lvCreates_takes {counts : List Int} {g : Vg} (hg : g.Held)
    (henough : (counts.map Int.toNat).sum ≤ g.freePes) :
    g.Takes (lvCreates g counts).1
        ((lvCreates g counts).2.flatMap Created.les) ∧
      ∀ v ∈ (lvCreates g counts).2, v.les = v.lv.leMap ∧
        v.lv.leCount ≤ v.les.length ∧
        v.allocated = v.les.map LeMap.extent := by
  induction counts generalizing g with
  | nil => exact ⟨Vg.Takes.refl hg, fun v hv => absurd hv List.not_mem_nil⟩
  | cons leCount rest ih =>
      rw [List.map_cons, List.sum_cons] at henough
      obtain ⟨hfirst, hlength⟩ := allocLes_takes leCount.toNat hg
      obtain ⟨hall, hles⟩ := createdBy_les hg leCount
      rw [Nat.sub_eq_zero_of_le (by omega), List.replicate_zero,
        List.append_nil] at hles
      have hfree := hfirst.freePes_add
      obtain ⟨hrest, hcomplete⟩ := ih hfirst.held (by omega)
      constructor
      · rw [lvCreates_cons, List.flatMap_cons, hles]
        exact hfirst.trans hrest
      · rw [lvCreates_cons]
        intro v hv
        rcases List.mem_cons.mp hv with rfl | hlater
        · refine ⟨hall, ?_, ?_⟩
          · rw [hles]
            show leCount ≤ _
            omega
          · rw [createdBy_allocated, hles]
        · exact hcomplete v hlater

/-- The volumes made by a sequence of `lv_create` calls map only their own PEs
exactly when the group has enough free PEs for all of them. -/
theorem lvCreates_ownStorageOnly_iff {g : Vg} (hg : g.Held)
    (counts : List Int) :
    OwnStorageOnly (lvCreates g counts).2 ↔
      (counts.map Int.toNat).sum ≤ g.freePes := by
  constructor
  · -- the first call that comes up short has an LE on a PE of another one
    intro hown
    induction counts generalizing g with
    | nil => exact Nat.zero_le _
    | cons leCount rest ih =>
        rw [lvCreates_cons] at hown
        have hroom : leCount.toNat ≤ g.freePes := by
          by_contra hshort
          exact not_ownStorageOnly_of_short hg (by omega) _ hown
        obtain ⟨hfirst, hlength⟩ := allocLes_takes leCount.toNat hg
        have hlater : OwnStorageOnly (lvCreates (lvCreate g leCount).1 rest).2 :=
          { owned := fun v hv => hown.owned v (List.mem_cons_of_mem _ hv)
            unshared := by
              have hnodup := hown.unshared
              rw [List.flatMap_cons] at hnodup
              exact (List.nodup_append.mp hnodup).2.1 }
        have hrest := ih hfirst.held hlater
        have hfree := hfirst.freePes_add
        rw [List.map_cons, List.sum_cons]
        omega
  · intro henough
    obtain ⟨htakes, hcomplete⟩ := lvCreates_takes hg henough
    refine ⟨?_, htakes.nodup⟩
    intro v hv i hi
    obtain ⟨hall, hlength, hallocated⟩ := hcomplete v hv
    have hlt : i < v.les.length := by omega
    refine ⟨v.les[i], ?_, ?_⟩
    · rw [← hall]
      exact List.getElem?_eq_getElem hlt
    · rw [hallocated]
      exact List.mem_map_of_mem (List.getElem_mem hlt)

/-- A group of one volume of three PEs. -/
def threePes : Vg :=
  { pvs := [pvCreate (3 * peSizeSectors)], totalPe := 3, freePe := 3
    history := [] }

theorem threePes_held : threePes.Held := by
  have hadd : system.step ⟨vgCreate, []⟩ (.addPv (3 * peSizeSectors)) =
      some ⟨threePes, []⟩ := by decide
  exact reachable_held ((ActionSystem.Reachable.start rfl).next hadd) (by decide)

/-- Volumes of one and of two LEs fill it. -/
theorem lvCreates_ownStorageOnly_three :
    OwnStorageOnly (lvCreates threePes [1, 2]).2 :=
  (lvCreates_ownStorageOnly_iff threePes_held [1, 2]).mpr (by decide)

/-- Of two volumes of two LEs the second is one PE short: its second LE maps to
the PE of the first volume's first LE. -/
theorem lvCreates_shares_first_pe :
    (lvCreates threePes [2, 2]).2.map (fun v => (v.lv.leCount, v.lv.leMap)) =
        [(2, [⟨0, 0⟩, ⟨0, 1⟩]), (2, [⟨0, 2⟩, ⟨0, 0⟩])] ∧
      ¬ OwnStorageOnly (lvCreates threePes [2, 2]).2 := by
  refine ⟨by decide, ?_⟩
  intro hown
  exact absurd hown.unshared (by decide)

/-! ## Extending a volume -/

/-- `lv_extend` returns, and has done nothing or all: on `-1` the volume, the
bitmaps and the counters are as before; on `0` the volume grew by
`additional_le` and its old sectors are where they were. -/
structure AllOrNothing (l : Lv) (g : Vg) (additionalLe : Int) : Prop where
  returned : (lvExtend l g additionalLe).isSome = true
  failed : ∀ l' g', lvExtend l g additionalLe = some (l', g', false) →
    l'.leCount = l.leCount ∧
    l'.leMap.take l.leCount.toNat = l.leMap.take l.leCount.toNat ∧
    (∀ sector : Nat, (sector : Int) < l.leCount * peSizeSectors →
      lvMapSector l' sector = lvMapSector l sector) ∧
    g'.pvs = g.pvs ∧ g'.totalPe = g.totalPe ∧ g'.freePe = g.freePe
  succeeded : ∀ l' g', lvExtend l g additionalLe = some (l', g', true) →
    l'.leCount = l.leCount + additionalLe ∧
    ∀ sector : Nat, (sector : Int) < l.leCount * peSizeSectors →
      lvMapSector l' sector = lvMapSector l sector

/-- A longer table with the same entries below the old `le_count` maps the old
sectors alike. -/
theorem lvMapSector_congr {l l' : Lv} (hl : l.Tabled) (hl' : l'.Tabled)
    (hcount : l.leCount ≤ l'.leCount)
    (hmap : ∀ i : Nat, (i : Int) < l.leCount → l'.leMap[i]? = l.leMap[i]?)
    {sector : Nat} (hsector : (sector : Int) < l.leCount * peSizeSectors) :
    lvMapSector l' sector = lvMapSector l sector := by
  have hindex : ((sector / peSizeSectors : Nat) : Int) < l.leCount := by
    simp only [peSizeSectors, sectorSize] at hsector ⊢
    omega
  have hsector' : (sector : Int) < l'.leCount * peSizeSectors := by
    simp only [peSizeSectors, sectorSize] at hsector ⊢
    omega
  obtain ⟨le, hle, hresult⟩ := lvMapSector_eq hl hsector
  obtain ⟨le', hle', hresult'⟩ := lvMapSector_eq hl' hsector'
  rw [hmap _ hindex, hle] at hle'
  obtain rfl := Option.some.inj hle'
  rw [hresult, hresult']

section AllOrNothing

variable {l : Lv} {g : Vg} {additionalLe : Int}

/-- Where the new LE count is an `int` the old part of the table stays, also when
the call fails, and so do the old sectors. -/
theorem lvExtend_keeps (hl : l.Tabled) (hadd : LeNumber additionalLe)
    (hfits : l.leCount + additionalLe < 2 ^ 31) {l' : Lv} {g' : Vg} {ok : Bool}
    (h : lvExtend l g additionalLe = some (l', g', ok)) :
    l'.leMap.take l.leCount.toNat = l.leMap.take l.leCount.toNat ∧
      ∀ sector : Nat, (sector : Int) < l.leCount * peSizeSectors →
        lvMapSector l' sector = lvMapSector l sector := by
  obtain ⟨hcount, hcovered⟩ := hl
  have hlow := hcount.1
  have hmap : l'.leMap = l.leMap.take l.leCount.toNat ++
      (allocLes additionalLe.toNat g).2 := by
    rw [lvExtend_of_fits hlow hadd.1 hfits] at h
    cases h
    rw [reallocKept_of_covered hcovered]
  have hlength : (l.leMap.take l.leCount.toNat).length = l.leCount.toNat := by
    rw [List.length_take]
    omega
  refine ⟨by rw [hmap, List.take_left' hlength], fun sector hsector => ?_⟩
  rcases lvExtend_cases hcount hadd h with
    ⟨-, hnumber, hgrown, htabled⟩ | ⟨hlost, -, hpos, -⟩
  · refine lvMapSector_congr ⟨hcount, hcovered⟩ ⟨hnumber, htabled⟩ hgrown
      (fun i hi => ?_) hsector
    rw [hmap, List.getElem?_append_left (by omega),
      List.getElem?_take_of_lt (by omega)]
  · -- the table is not lost here
    rw [hlost] at hmap
    have hnone := congrArg List.length hmap
    rw [List.length_append, hlength, List.length_nil] at hnone
    omega

/-- A call that finds too few PEs takes those there are, so it does nothing
only if there is none. -/
theorem allOrNothing_iff_of_short (hl : l.Tabled) (hg : g.Held)
    (hadd : LeNumber additionalLe) (hfits : l.leCount + additionalLe < 2 ^ 31)
    (hshort : g.freePes < additionalLe.toNat) :
    AllOrNothing l g additionalLe ↔ g.freePes = 0 := by
  obtain ⟨htakes, hlength⟩ := allocLes_takes additionalLe.toNat hg
  have hless : (allocLes additionalLe.toNat g).2.length < additionalLe.toNat := by
    omega
  have hresult := lvExtend_of_fits (g := g) hl.count.1 hadd.1 hfits
  rw [if_pos hless, decide_eq_false (by omega)] at hresult
  constructor
  · intro hall
    have hpvs := (hall.failed _ _ hresult).2.2.2.1
    have hfree := htakes.freePes_add
    rw [Vg.freePes, hpvs] at hfree
    change g.freePes + _ = g.freePes at hfree
    omega
  · intro hfull
    have hles := hg.allocLes_of_full hfull additionalLe.toNat
    refine ⟨by rw [hresult]; rfl, fun l' g' h => ?_, fun l' g' h => ?_⟩
    · obtain ⟨hmap, hsectors⟩ := lvExtend_keeps hl hadd hfits h
      rw [hresult, hles] at h
      cases h
      exact ⟨rfl, hmap, hsectors, rfl, rfl, rfl⟩
    · rw [hresult] at h
      cases h

/-- A call that finds enough PEs succeeds. -/
theorem allOrNothing_of_enough (hl : l.Tabled) (hg : g.Held)
    (hadd : LeNumber additionalLe) (hfits : l.leCount + additionalLe < 2 ^ 31)
    (henough : additionalLe.toNat ≤ g.freePes) :
    AllOrNothing l g additionalLe := by
  have hlength := (allocLes_takes additionalLe.toNat hg).2
  have hall : ¬ (allocLes additionalLe.toNat g).2.length < additionalLe.toNat := by
    omega
  have hresult := lvExtend_of_fits (g := g) hl.count.1 hadd.1 hfits
  rw [if_neg hall, decide_eq_true (by omega)] at hresult
  refine ⟨by rw [hresult]; rfl, fun l' g' h => ?_, fun l' g' h => ?_⟩
  · rw [hresult] at h
    cases h
  · refine ⟨?_, (lvExtend_keeps hl hadd hfits h).2⟩
    rw [hresult] at h
    cases h
    rfl

/-- Where the new LE count is not an `int`, the call crashes at the first PE it
finds, or returns `-1` without the table. -/
theorem not_allOrNothing_of_overflow (hl : l.Tabled)
    (hadd : LeNumber additionalLe)
    (hover : 2 ^ 31 ≤ l.leCount + additionalLe) :
    ¬ AllOrNothing l g additionalLe := by
  intro hall
  have hresult := lvExtend_of_overflow (g := g) hl.count hadd hover
  by_cases hnone : (allocLes additionalLe.toNat g).2 = []
  · rw [if_pos hnone] at hresult
    have hmap := congrArg List.length (hall.failed _ _ hresult).2.1
    have hcovered := hl.covered
    have hhigh := hadd.2
    rw [List.length_take, List.length_take, List.length_nil] at hmap
    omega
  · rw [if_neg hnone] at hresult
    have hreturned := hall.returned
    rw [hresult] at hreturned
    contradiction

end AllOrNothing

/-- `lv_extend` is all-or-nothing exactly when the new `le_count` is an `int` and
the group has enough free PEs or none at all. -/
theorem lvExtend_allOrNothing_iff {l : Lv} (hl : l.Tabled) {g : Vg}
    (hg : g.Held) {additionalLe : Int} (hadd : LeNumber additionalLe) :
    AllOrNothing l g additionalLe ↔
      l.leCount + additionalLe < 2 ^ 31 ∧
        (g.freePes = 0 ∨ additionalLe ≤ g.freePes) := by
  rcases Int.lt_or_le (l.leCount + additionalLe) (2 ^ 31) with hfits | hover
  · have hlow := hadd.1
    by_cases hshort : g.freePes < additionalLe.toNat
    · rw [allOrNothing_iff_of_short hl hg hadd hfits hshort]
      omega
    · have hall := allOrNothing_of_enough hl hg hadd hfits (by omega)
      simp only [hall, true_iff]
      omega
  · have hnot := not_allOrNothing_of_overflow (g := g) hl hadd hover
    simp only [hnot, false_iff]
    omega

/-- A volume without an LE in a new group. -/
def emptyLv : Lv :=
  { leCount := 0, leMap := [], origin := none, cowBitmap := []
    cowPeStart := 0, cowPeCount := 0 }

theorem emptyLv_tabled : emptyLv.Tabled :=
  ⟨⟨by decide, by decide⟩, by decide⟩

/-- Three LEs are all or nothing in a group of three PEs. -/
theorem lvExtend_allOrNothing_three : AllOrNothing emptyLv threePes 3 :=
  (lvExtend_allOrNothing_iff emptyLv_tabled threePes_held
    ⟨by decide, by decide⟩).mpr (by decide)

/-- A group whose only PE belongs to a volume. -/
def onePeTaken : Vg :=
  { pvs := [⟨peSizeSectors, 1, [1], 0⟩], totalPe := 1, freePe := 0
    history := [⟨0, 0, 1⟩] }

/-- That volume. -/
def oneLe : Lv :=
  { leCount := 1, leMap := [⟨0, 0⟩], origin := none, cowBitmap := []
    cowPeStart := 0, cowPeCount := 0 }

/-- Four LEs are too many for three PEs: the call fails and keeps all of them.
And in a full group, an LE count that is not an `int` costs the volume its
table. -/
theorem lvExtend_not_allOrNothing :
    ((lvExtend emptyLv threePes 4).map fun r => (r.2.1.freePe, r.2.2)) =
        some (0, false) ∧
      ¬ AllOrNothing emptyLv threePes 4 ∧
    lvExtend oneLe onePeTaken (2 ^ 31 - 1) =
        some ({ oneLe with leMap := [] }, onePeTaken, false) ∧
      ¬ AllOrNothing oneLe onePeTaken (2 ^ 31 - 1) := by
  have hkept : (lvExtend emptyLv threePes 4).map
      (fun r => (r.2.1.freePe, r.2.2)) = some (0, false) := by decide
  have hlost : lvExtend oneLe onePeTaken (2 ^ 31 - 1) =
      some ({ oneLe with leMap := [] }, onePeTaken, false) := by decide
  refine ⟨hkept, fun hall => ?_, hlost, fun hall => ?_⟩
  · obtain ⟨⟨l', g', ok⟩, hresult, heq⟩ := Option.map_eq_some_iff.mp hkept
    obtain ⟨hfree, rfl⟩ := Prod.mk.inj heq
    have hsame := (hall.failed _ _ hresult).2.2.2.2.2
    rw [show g'.freePe = 0 from hfree] at hsame
    exact absurd hsame (by decide)
  · exact absurd (hall.failed _ _ hlost).2.1 (by decide)

end Lvm
end OsKernel
