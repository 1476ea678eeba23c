import OsKernel.Lvm.PvAlloc

/-!
# One physical volume as a set of extents

A volume is used through `pv_alloc` and `pv_free` alone.  What it is for is
said by the set of the PEs allocated and not yet freed: `pv_alloc` adds a run
to it and `pv_free` takes one away, which may be a part of an allocated run or
join several.  `Pv.Holds` ties the bitmap and the counter to this set.

A volume of any size is covered, also one whose PE count wraps or is negative
as an `int`; nothing can be allocated from the latter.  From `2 ^ 31 - 63` PEs on
the volume has no bitmap and there is nothing that could record the set
(`pv_refines_extents_iff`).
-/

namespace OsKernel
namespace Lvm

open Lib
open Lib.FirstFit

/-- The volume and, as a ghost, the PEs allocated and not yet freed. -/
structure PvState where
  pv : Pv
  allocated : Finset Nat

/-- Calls on one volume. -/
inductive PvCall
  | alloc (count : Int)
  | free (start count : Int)
  deriving DecidableEq, Repr

/-- Every PE of the range is allocated. -/
def RangeAllocated (allocated : Finset Nat) (start count : Int) : Prop :=
  0 ≤ count ∧ (0 < count → 0 ≤ start) ∧
    Finset.Ico start.toNat (start.toNat + count.toNat) ⊆ allocated

instance (allocated : Finset Nat) (start count : Int) :
    Decidable (RangeAllocated allocated start count) :=
  inferInstanceAs (Decidable (_ ∧ _ ∧ _))

/-- An allocation of at least one PE, which may fail, or the freeing of a range
of allocated PEs.  An allocation from a volume without a bitmap crashes; there is
nothing to free in one. -/
def pvStep (s : PvState) : PvCall → Option PvState
  | .alloc count =>
      if 1 ≤ count ∧ s.pv.Mapped then
        match pvAlloc s.pv count with
        | none => some s
        | some (changed, start) =>
            some
              { pv := changed
                allocated := s.allocated ∪
                  Finset.Ico start.toNat (start.toNat + count.toNat) }
      else none
  | .free start count =>
      if RangeAllocated s.allocated start count then
        some
          { pv := pvFree s.pv start count
            allocated := s.allocated \
              Finset.Ico start.toNat (start.toNat + count.toNat) }
      else none

/-- Any sequence of such calls on a new volume of the given size. -/
def pvSystem (sizeSectors : Nat) : ActionSystem PvState PvCall where
  init s := s.pv = pvCreate sizeSectors ∧ s.allocated = ∅
  step := pvStep

/-- The volume's bitmap and counter record the set of allocated PEs. -/
structure Pv.Holds (p : Pv) (allocated : Finset Nat) : Prop where
  fits : FitsInt p.peCount
  bitmap_length : p.Mapped
  inside : ∀ pe ∈ allocated, (pe : Int) < p.peCount
  test_iff : ∀ pe, Bitmap.test p.peBitmap pe = true ↔ pe ∈ allocated
  freePe_eq : p.freePe = p.peCount - allocated.card

theorem pvCreate_holds {sizeSectors : Nat}
    (hmapped : (pvCreate sizeSectors).Mapped) :
    (pvCreate sizeSectors).Holds ∅ where
  fits := fitsInt_peCount_pvCreate sizeSectors
  bitmap_length := hmapped
  inside := by simp
  test_iff := by simp [test_pvCreate]
  freePe_eq := by simp [pvCreate]

/-- A set of PEs of a volume has at most as many as the volume. -/
theorem card_le_of_inside {peCount : Int} {pes : Finset Nat}
    (hinside : ∀ pe ∈ pes, (pe : Int) < peCount) :
    pes.card ≤ peCount.toNat := by
  have hsubset : pes ⊆ Finset.range peCount.toNat := by
    intro pe hpe
    have hlt := hinside pe hpe
    rw [Finset.mem_range]
    omega
  simpa using Finset.card_le_card hsubset

section Holds

variable {p : Pv} {allocated : Finset Nat}

/-- A free run is disjoint from the allocated PEs. -/
theorem Pv.Holds.disjoint_run (h : p.Holds allocated) {first count : Nat}
    (hrun : FreeRun (FreePe p.peBitmap) first count) :
    Disjoint allocated (Finset.Ico first (first + count)) := by
  rw [Finset.disjoint_left]
  intro pe hpe hin
  rw [Finset.mem_Ico] at hin
  have hfree : Bitmap.test p.peBitmap pe = false := hrun pe hin.1 hin.2
  rw [(h.test_iff pe).mpr hpe] at hfree
  exact absurd hfree (by decide)

/-- A successful allocation adds a free run to the set. -/
theorem Pv.Holds.pvAlloc_some (h : p.Holds allocated) {count : Nat}
    (hcount : 0 < count) {changed : Pv} {start : Int}
    (halloc : pvAlloc p count = some (changed, start)) :
    ∃ first : Nat, start = first ∧
      FreeRun (FreePe p.peBitmap) first count ∧
      changed = { p with
        peBitmap := Bitmap.setRange p.peBitmap first count
        freePe := p.freePe - count } ∧
      changed.Holds (allocated ∪ Finset.Ico first (first + count)) := by
  obtain ⟨first, rfl, hfirst, rfl⟩ := pvAlloc_eq_some hcount halloc
  have hinside := hfirst.inside
  have hlength : p.peCount ≤ 64 * p.peBitmap.length := h.bitmap_length
  have htest := Bitmap.test_setRange p.peBitmap
    (show first + count ≤ 64 * p.peBitmap.length by omega)
  have hcard : (allocated ∪ Finset.Ico first (first + count)).card =
      allocated.card + count := by
    rw [Finset.card_union_of_disjoint (h.disjoint_run hfirst.run),
      Nat.card_Ico]
    omega
  have hunion : ∀ pe ∈ allocated ∪ Finset.Ico first (first + count),
      (pe : Int) < p.peCount := by
    intro pe hpe
    rcases Finset.mem_union.mp hpe with hold | hnew
    · exact h.inside pe hold
    · rw [Finset.mem_Ico] at hnew
      omega
  -- the counter does not wrap: it counts PEs of the volume before and after
  have hfree : wrap32 (p.freePe - count) = p.freePe - count := by
    have hle := card_le_of_inside hunion
    obtain ⟨hlow, hhigh⟩ := h.fits
    apply wrap32_of_fitsInt
    rw [h.freePe_eq]
    exact ⟨by omega, by omega⟩
  rw [hfree]
  refine ⟨first, rfl, hfirst.run, rfl, ?_⟩
  exact {
    fits := h.fits
    bitmap_length := by
      rw [Pv.Mapped, Bitmap.length_setRange]
      exact hlength
    inside := hunion
    test_iff := by
      intro pe
      rw [htest, Bool.or_eq_true, h.test_iff, decide_eq_true_eq,
        Finset.mem_union, Finset.mem_Ico]
    freePe_eq := by
      rw [h.freePe_eq, hcard]
      push_cast
      omega }

/-- Freeing allocated PEs takes them out of the set. -/
theorem Pv.Holds.pvFree (h : p.Holds allocated) {first count : Nat}
    (hsubset : Finset.Ico first (first + count) ⊆ allocated) :
    Lvm.pvFree p first count = { p with
      peBitmap := Bitmap.clearRange p.peBitmap first count
      freePe := p.freePe + count } ∧
    (Lvm.pvFree p first count).Holds
      (allocated \ Finset.Ico first (first + count)) := by
  have hcard : (allocated \ Finset.Ico first (first + count)).card + count =
      allocated.card := by
    have hsplit := Finset.card_sdiff_add_card_eq_card hsubset
    rw [Nat.card_Ico] at hsplit
    omega
  have hfree : wrap32 (p.freePe + count) = p.freePe + count := by
    have hle := card_le_of_inside h.inside
    obtain ⟨hlow, hhigh⟩ := h.fits
    apply wrap32_of_fitsInt
    rw [h.freePe_eq]
    exact ⟨by omega, by omega⟩
  have heq : Lvm.pvFree p first count = { p with
      peBitmap := Bitmap.clearRange p.peBitmap first count
      freePe := p.freePe + count } := by
    rw [Lvm.pvFree, hfree, Int.toNat_natCast, Int.toNat_natCast]
  refine ⟨heq, ?_⟩
  rw [heq]
  exact {
    fits := h.fits
    bitmap_length := by
      rw [Pv.Mapped, Bitmap.length_clearRange]
      exact h.bitmap_length
    inside := fun pe hpe => h.inside pe (Finset.mem_sdiff.mp hpe).1
    test_iff := by
      intro pe
      rw [Bitmap.test_clearRange, Bool.and_eq_true, h.test_iff,
        Bool.not_eq_true', decide_eq_false_iff_not, Finset.mem_sdiff,
        Finset.mem_Ico]
    freePe_eq := by
      show p.freePe + count = p.peCount - _
      rw [h.freePe_eq]
      omega }

/-- Freeing what was just allocated gives the volume back as it was. -/
theorem Pv.Holds.pvFree_pvAlloc (h : p.Holds allocated) {count : Nat}
    (hcount : 0 < count) {changed : Pv} {start : Int}
    (halloc : pvAlloc p count = some (changed, start)) :
    Lvm.pvFree changed start count = p := by
  obtain ⟨first, rfl, hrun, hchanged, hholds⟩ := h.pvAlloc_some hcount halloc
  obtain ⟨hfreed, hback⟩ := hholds.pvFree Finset.subset_union_right
  rw [Finset.union_sdiff_cancel_right (h.disjoint_run hrun)] at hback
  -- both volumes hold the same set, so their bitmaps have the same bits
  have hbitmap : (Lvm.pvFree changed first count).peBitmap = p.peBitmap := by
    apply Bitmap.ext_test
    · rw [hfreed, hchanged, Bitmap.length_clearRange, Bitmap.length_setRange]
    · intro pe
      rw [Bool.eq_iff_iff, hback.test_iff, h.test_iff]
  have hfields : Lvm.pvFree changed first count =
      { p with peBitmap := (Lvm.pvFree changed first count).peBitmap } := by
    rw [hfreed, hchanged]
    simp
  rw [hfields, hbitmap]

end Holds

/-! ## Runs -/

theorem pvStep_holds {s s' : PvState} {call : PvCall}
    (h : s.pv.Holds s.allocated) (hstep : pvStep s call = some s') :
    s'.pv.Holds s'.allocated := by
  cases call with
  | alloc count =>
      simp only [pvStep] at hstep
      split_ifs at hstep with hcount
      split at hstep
      · obtain rfl := Option.some.inj hstep
        exact h
      · rename_i changed start halloc
        obtain rfl := Option.some.inj hstep
        lift count to Nat using by omega
        obtain ⟨first, rfl, -, -, hholds⟩ := h.pvAlloc_some (by omega) halloc
        exact hholds
  | free start count =>
      simp only [pvStep] at hstep
      split_ifs at hstep with hrange
      obtain ⟨hcount, -, hsubset⟩ := hrange
      obtain rfl := Option.some.inj hstep
      lift count to Nat using hcount
      have hstart : pvFree s.pv start count =
          pvFree s.pv (start.toNat : Int) count := by
        rw [pvFree, pvFree, Int.toNat_natCast start.toNat]
      rw [hstart]
      exact (h.pvFree hsubset).2

theorem reachable_holds {sizeSectors : Nat}
    (hmapped : (pvCreate sizeSectors).Mapped) {s : PvState}
    (hreach : (pvSystem sizeSectors).Reachable s) :
    s.pv.Holds s.allocated := by
  refine hreach.invariant (P := fun s => s.pv.Holds s.allocated) ?_
    fun s call s' _ h hstep => pvStep_holds h hstep
  rintro ⟨pv, allocated⟩ ⟨rfl, rfl⟩
  exact pvCreate_holds hmapped

/-- The volume is a set of extents: there is a bit for every PE, the set bits are
the PEs allocated and not yet freed, all of them below `pe_count`, `free_pe` is
`pe_count` less their number, and an allocation followed by the freeing of what
it returned restores the volume. -/
structure RefinesExtents (s : PvState) : Prop where
  mapped : s.pv.Mapped
  inside : ∀ pe ∈ s.allocated, (pe : Int) < s.pv.peCount
  bits : ∀ pe : Nat, (pe : Int) < s.pv.peCount →
    (Bitmap.test s.pv.peBitmap pe = true ↔ pe ∈ s.allocated)
  beyond : ∀ pe : Nat, s.pv.peCount ≤ pe →
    Bitmap.test s.pv.peBitmap pe = false
  freePe_eq : s.pv.freePe = s.pv.peCount - s.allocated.card
  restored : ∀ count changed start, 1 ≤ count →
    pvAlloc s.pv count = some (changed, start) →
    (pvFree changed start count).peBitmap = s.pv.peBitmap ∧
    (pvFree changed start count).freePe = s.pv.freePe

theorem Pv.Holds.refinesExtents {s : PvState} (h : s.pv.Holds s.allocated) :
    RefinesExtents s where
  mapped := h.bitmap_length
  inside := h.inside
  bits := fun pe _ => h.test_iff pe
  beyond := by
    intro pe hbeyond
    rw [Bool.eq_false_iff, ne_eq, h.test_iff]
    intro hpe
    have hinside := h.inside pe hpe
    omega
  freePe_eq := h.freePe_eq
  restored := by
    intro count changed start hcount halloc
    lift count to Nat using by omega
    rw [h.pvFree_pvAlloc (by omega) halloc]
    exact ⟨rfl, rfl⟩

/-- A volume is a set of extents in every state of every run exactly if it has at
most `2 ^ 31 - 64` PEs. -/
theorem pv_refines_extents_iff (sizeSectors : Nat) :
    (∀ s, (pvSystem sizeSectors).Reachable s → RefinesExtents s) ↔
      (pvCreate sizeSectors).peCount ≤ 2 ^ 31 - 64 := by
  rw [← mapped_pvCreate_iff]
  constructor
  · intro hall
    exact (hall ⟨pvCreate sizeSectors, ∅⟩ (.start ⟨rfl, rfl⟩)).mapped
  · intro hmapped s hreach
    exact (reachable_holds hmapped hreach).refinesExtents

/-- A volume of 66 PEs, of which 65 are allocated and the two around the end of
the first word freed again. -/
theorem pv_refines_extents_two_words :
    ∃ s, (pvSystem 135168).run ⟨pvCreate 135168, ∅⟩
        [.alloc 65, .free 63 2] = some s ∧
      s.pv.freePe = 3 ∧ RefinesExtents s := by
  have hstart : (pvSystem 135168).Reachable ⟨pvCreate 135168, ∅⟩ :=
    .start ⟨rfl, rfl⟩
  have hrun : ((pvSystem 135168).run ⟨pvCreate 135168, ∅⟩
      [.alloc 65, .free 63 2]).isSome = true := by
    decide
  have hthree : (Option.get _ hrun).pv.freePe = 3 := by decide +revert
  have hreach := hstart.run (Option.some_get hrun).symm
  exact ⟨_, (Option.some_get hrun).symm, hthree,
    (pv_refines_extents_iff 135168).mpr (by decide) _ hreach⟩

/-- A volume of `2 ^ 31 - 63` PEs has no bitmap, and the first allocation
crashes. -/
theorem not_refines_extents_without_bitmap :
    (pvCreate ((2 ^ 31 - 63) * 2048)).peCount = 2 ^ 31 - 63 ∧
      (pvCreate ((2 ^ 31 - 63) * 2048)).peBitmap = [] ∧
      (pvCreate ((2 ^ 31 - 63) * 2048)).freePe = 2 ^ 31 - 63 ∧
      pvStep ⟨pvCreate ((2 ^ 31 - 63) * 2048), ∅⟩ (.alloc 1) = none ∧
      ¬ ∀ s, (pvSystem ((2 ^ 31 - 63) * 2048)).Reachable s →
        RefinesExtents s := by
  have hunmapped : ¬ (pvCreate ((2 ^ 31 - 63) * 2048)).Mapped := by decide
  refine ⟨by decide, by decide, by decide, ?_, ?_⟩
  · have hcrash : ¬ ((1 : Int) ≤ 1 ∧
        (pvCreate ((2 ^ 31 - 63) * 2048)).Mapped) :=
      fun h => hunmapped h.2
    rw [pvStep, if_neg hcrash]
  · intro hall
    exact hunmapped (hall ⟨_, ∅⟩ (.start ⟨rfl, rfl⟩)).mapped

end Lvm
end OsKernel
