import OsKernel.Lib.FirstFit
import OsKernel.Lvm.Model

/-!
# Allocation inside one physical volume

`pv_alloc` finds the lowest run of free PEs (`pvAllocScan_spec`), and what it
changes is the run it found.  `Pv.Valid` ties a volume's counters and its
bitmap together; `pv_create` establishes it, and `pv_alloc` keeps it if the volume
has a word for every PE.  It has not if `pv_create` asked `calloc` for more words
than there are (`mapped_pvCreate_iff`).
-/

namespace OsKernel
namespace Lvm

open Lib
open Lib.FirstFit

/-- PE `pe` of a bitmap is free. -/
def FreePe (bitmap : List (BitVec 64)) (pe : Nat) : Prop :=
  Bitmap.test bitmap pe = false

/-! ## The search loop -/

section
variable {bitmap : List (BitVec 64)} {i : Nat}

/-- A round at an allocated PE starts again behind it. -/
theorem pvAllocScan_of_blocked (hblocked : ¬ FreePe bitmap i)
    (count : Int) (remaining : Nat) (found start : Int) :
    pvAllocScan bitmap count (remaining + 1) i found start =
      pvAllocScan bitmap count remaining (i + 1) 0 (-1) :=
  if_neg hblocked

/-- A round at a free PE, with the last `found` PEs below it free: it is the end
of a run that begins at `i - found`. -/
theorem pvAllocScan_of_free (hfree : FreePe bitmap i) {found : Nat}
    (hle : found ≤ i) {start : Int}
    (hstart : found ≠ 0 → start = (i - found : Nat)) (count remaining : Nat) :
    pvAllocScan bitmap count (remaining + 1) i found start =
      if found + 1 = count then ((count : Int), ((i - found : Nat) : Int))
      else pvAllocScan bitmap count remaining (i + 1) (found + 1 : Nat)
        (i - found : Nat) := by
  -- `start` is reset when the run begins at `i` and kept otherwise
  have hnew : (if (found : Int) = 0 then (i : Int) else start) =
      (i - found : Nat) := by
    split
    · omega
    · exact hstart (by omega)
  have htest : Bitmap.test bitmap i = false := hfree
  simp only [pvAllocScan, htest, if_true, hnew]
  by_cases hdone : found + 1 = count
  · have hcount : (found : Int) + 1 = count := by omega
    rw [if_pos hdone, if_pos hcount, hcount]
  · have hcount : ¬ (found : Int) + 1 = count := by omega
    rw [if_neg hdone, if_neg hcount]
    rfl

end

/-- The search loop of `pv_alloc`, entered with the last `found` PEs below `i`
free: it stops with `found = count` at the first run, and with less when there
is none. -/
theorem pvAllocScan_spec (bitmap : List (BitVec 64)) {count : Nat}
    (remaining i found : Nat) (start : Int)
    (hscanned : Scanned (FreePe bitmap) count i found)
    (hstart : found ≠ 0 → start = (i - found : Nat)) :
    (∃ first : Nat, FirstRun (FreePe bitmap) (i + remaining) count first ∧
      pvAllocScan bitmap count remaining i found start =
        ((count : Int), (first : Int))) ∨
    ((pvAllocScan bitmap count remaining i found start).1 < count ∧
      ∀ first, first + count ≤ i + remaining →
        ¬ FreeRun (FreePe bitmap) first count) := by
  induction remaining generalizing i found start with
  | zero =>
      refine Or.inr ⟨?_, ?_⟩
      · have := hscanned.lt
        simp only [pvAllocScan]
        omega
      · intro first hfirst
        exact hscanned.noRun first (by omega)
  | succ remaining ih =>
      have hlimit : i + (remaining + 1) = i + 1 + remaining := by omega
      -- a free PE makes the run longer, a taken one ends it
      by_cases hfree : FreePe bitmap i
      · rw [pvAllocScan_of_free hfree hscanned.le hstart]
        by_cases hdone : found + 1 = count
        · rw [if_pos hdone]
          exact Or.inl ⟨i - found,
            hscanned.complete hfree hdone (by omega), rfl⟩
        · have hlt : found + 1 < count := by
            have := hscanned.lt
            omega
          rw [if_neg hdone, hlimit]
          refine ih (i + 1) (found + 1) _ (hscanned.next_free hfree hlt) ?_
          intro _
          rw [Nat.add_sub_add_right]
      · rw [pvAllocScan_of_blocked hfree, hlimit]
        exact ih (i + 1) 0 (-1) (hscanned.next_blocked hfree)
          (fun h => absurd rfl h)

/-! ## The call -/

/-- What `pv_alloc` does for a positive count: either the lowest run of free
PEs is marked and leaves the counter, or there is none. -/
theorem pvAlloc_spec (p : Pv) {count : Nat} (hcount : 0 < count) :
    (∃ first : Nat,
      FirstRun (FreePe p.peBitmap) p.peCount.toNat count first ∧
      pvAlloc p count = some ({ p with
        peBitmap := Bitmap.setRange p.peBitmap first count
        freePe := wrap32 (p.freePe - count) }, (first : Int))) ∨
    (pvAlloc p count = none ∧
      ∀ first, first + count ≤ p.peCount.toNat →
        ¬ FreeRun (FreePe p.peBitmap) first count) := by
  have hscan := pvAllocScan_spec p.peBitmap p.peCount.toNat 0 0 (-1)
    (Scanned.zero hcount) (fun h => absurd rfl h)
  rw [Nat.zero_add] at hscan
  rcases hscan with ⟨first, hfirst, hresult⟩ | ⟨hshort, hnone⟩
  · refine Or.inl ⟨first, hfirst, ?_⟩
    have hresult' : pvAllocScan p.peBitmap count p.peCount.toNat 0 0 (-1) =
        ((count : Int), (first : Int)) := hresult
    simp [pvAlloc, hresult']
  · refine Or.inr ⟨?_, hnone⟩
    have hshort' :
        (pvAllocScan p.peBitmap count p.peCount.toNat 0 0 (-1)).1 < count :=
      hshort
    simp only [pvAlloc]
    rw [if_pos hshort']

/-- What a successful `pv_alloc` has found and done. -/
theorem pvAlloc_eq_some {p changed : Pv} {count : Nat} {start : Int}
    (hcount : 0 < count) (halloc : pvAlloc p count = some (changed, start)) :
    ∃ first : Nat, start = first ∧
      FirstRun (FreePe p.peBitmap) p.peCount.toNat count first ∧
      changed = { p with
        peBitmap := Bitmap.setRange p.peBitmap first count
        freePe := wrap32 (p.freePe - count) } := by
  rcases pvAlloc_spec p hcount with ⟨first, hfirst, hresult⟩ | ⟨hresult, -⟩
  · rw [hresult, Option.some.injEq, Prod.mk.injEq] at halloc
    exact ⟨first, halloc.2.symm, hfirst, halloc.1.symm⟩
  · rw [hresult] at halloc
    contradiction

/-! ## Counters and bitmap -/

/-- The free PEs of a volume. -/
def Pv.clearPes (p : Pv) : Finset Nat :=
  (Finset.range p.peCount.toNat).filter fun pe =>
    Bitmap.test p.peBitmap pe = false

theorem Pv.card_clearPes_le (p : Pv) : p.clearPes.card ≤ p.peCount.toNat := by
  have hcard := Finset.card_filter_le (Finset.range p.peCount.toNat)
    fun pe => Bitmap.test p.peBitmap pe = false
  rwa [Finset.card_range] at hcard

/-- A free run inside the volume is a part of its free PEs. -/
theorem FreeRun.subset_clearPes {p : Pv} {first count : Nat}
    (hrun : FreeRun (FreePe p.peBitmap) first count)
    (hinside : (first + count : Int) ≤ p.peCount) :
    Finset.Ico first (first + count) ⊆ p.clearPes := by
  intro pe hpe
  rw [Finset.mem_Ico] at hpe
  rw [Pv.clearPes, Finset.mem_filter, Finset.mem_range]
  exact ⟨by omega, hrun pe hpe.1 hpe.2⟩

/-- A volume whose counters agree with its size and its bitmap. -/
structure Pv.Valid (p : Pv) : Prop where
  peCount_eq : p.peCount = (p.size / peSizeSectors : Nat)
  fits : p.peCount < 2 ^ 31
  tail_clear : ∀ pe, Bitmap.test p.peBitmap pe = true → (pe : Int) < p.peCount
  freePe_eq : p.freePe = p.clearPes.card

theorem Pv.Valid.peCount_nonneg {p : Pv} (h : p.Valid) : 0 ≤ p.peCount := by
  rw [h.peCount_eq]
  exact Int.natCast_nonneg _

/-- A negative number of members is a `size_t` with which `calloc` fails. -/
theorem toU64_neg_mul {x : Int} (hneg : x < 0) (hlow : -2 ^ 61 ≤ x) :
    ¬ toU64 x * 8 < 2 ^ 64 := by
  have hwrapped : x % 2 ^ 64 = x + 2 ^ 64 := by omega
  rw [toU64, hwrapped]
  omega

/-- There is a bit for everything that is counted, up to `2 ^ 31 - 64` bits; then
`bits + 63` leaves the range of `int` and there is none at all. -/
theorem bitmapWords_eq {bits : Int} (hfits : FitsInt bits) :
    bitmapWords bits =
      if bits ≤ 2 ^ 31 - 64 then (bits.toNat + 63) / 64 else 0 := by
  obtain ⟨hlow, hhigh⟩ := hfits
  simp only [bitmapWords]
  by_cases hsmall : bits ≤ 2 ^ 31 - 64
  · rw [if_pos hsmall, wrap32_of_fitsInt ⟨by omega, by omega⟩]
    rcases Int.lt_or_le (bits + 63) 0 with hneg | hnonneg
    · -- nothing to count
      have hquot : (bits + 63).tdiv 64 = -(-(bits + 63) / 64) := by
        rw [← Int.neg_neg (bits + 63), Int.neg_tdiv,
          Int.tdiv_eq_ediv_of_nonneg (by omega), Int.neg_neg]
      rcases Int.lt_or_le ((bits + 63).tdiv 64) 0 with hless | hzero
      · rw [if_neg (toU64_neg_mul hless (by omega))]
        omega
      · obtain hzero : (bits + 63).tdiv 64 = 0 := by omega
        have hnone : toU64 0 = 0 := rfl
        rw [hzero, hnone, if_pos (by decide)]
        omega
    · rw [Int.tdiv_eq_ediv_of_nonneg hnonneg,
        toU64_of_nonneg (by omega) (by omega), if_pos (by omega)]
      omega
  · have hquot : (bits + 63 - 2 ^ 32).tdiv 64 =
        -((2 ^ 32 - (bits + 63)) / 64) := by
      rw [← Int.neg_sub, Int.neg_tdiv, Int.tdiv_eq_ediv_of_nonneg (by omega)]
    rw [if_neg hsmall, wrap32_of_overflow (by omega) (by omega), hquot,
      if_neg (toU64_neg_mul (by omega) (by omega))]

theorem length_peBitmap_pvCreate (sizeSectors : Nat) :
    (pvCreate sizeSectors).peBitmap.length =
      bitmapWords (pvCreate sizeSectors).peCount := by
  simp only [pvCreate, List.length_replicate]

theorem fitsInt_peCount_pvCreate (sizeSectors : Nat) :
    FitsInt (pvCreate sizeSectors).peCount := by
  simp only [pvCreate]
  exact fitsInt_wrap32 _

/-- A volume whose bitmap has the length that `pv_create` gave it has a word for
every PE exactly up to `2 ^ 31 - 64` PEs. -/
theorem Pv.mapped_iff {p : Pv} (hfits : FitsInt p.peCount)
    (hlength : p.peBitmap.length = bitmapWords p.peCount) :
    p.Mapped ↔ p.peCount ≤ 2 ^ 31 - 64 := by
  rw [Pv.Mapped, hlength, bitmapWords_eq hfits]
  split
  next hsmall =>
    simp only [hsmall, iff_true]
    omega
  next hlarge => omega

theorem mapped_pvCreate_iff (sizeSectors : Nat) :
    (pvCreate sizeSectors).Mapped ↔
      (pvCreate sizeSectors).peCount ≤ 2 ^ 31 - 64 :=
  Pv.mapped_iff (fitsInt_peCount_pvCreate sizeSectors)
    (length_peBitmap_pvCreate sizeSectors)

/-- A new volume has all its PEs free. -/
theorem test_pvCreate (sizeSectors pe : Nat) :
    Bitmap.test (pvCreate sizeSectors).peBitmap pe = false := by
  simp [pvCreate]

theorem clearPes_pvCreate (sizeSectors : Nat) :
    (pvCreate sizeSectors).clearPes =
      Finset.range (pvCreate sizeSectors).peCount.toNat := by
  unfold Pv.clearPes
  exact Finset.filter_true_of_mem fun pe _ => test_pvCreate sizeSectors pe

theorem peCount_pvCreate {sizeSectors : Nat}
    (hfits : sizeSectors / peSizeSectors < 2 ^ 31) :
    (pvCreate sizeSectors).peCount = (sizeSectors / peSizeSectors : Nat) := by
  simp only [pvCreate]
  exact wrap32_natCast hfits

/-- `pv_create` of a size whose PE count fits in an `int`. -/
theorem pvCreate_valid {sizeSectors : Nat}
    (hfits : sizeSectors / peSizeSectors < 2 ^ 31) :
    (pvCreate sizeSectors).Valid where
  peCount_eq := peCount_pvCreate hfits
  fits := (fitsInt_peCount_pvCreate sizeSectors).2
  tail_clear := by
    intro pe hset
    rw [test_pvCreate] at hset
    exact absurd hset (by decide)
  freePe_eq := by
    rw [clearPes_pvCreate, Finset.card_range]
    change (pvCreate sizeSectors).peCount = _
    rw [peCount_pvCreate hfits, Int.toNat_natCast]

/-- The effect of marking the PEs `first, ..., first + count - 1` of `p`, all
of them free before. -/
structure PvAllocated (p changed : Pv) (first count : Nat) : Prop where
  size_eq : changed.size = p.size
  peCount_eq : changed.peCount = p.peCount
  freePe_eq : changed.freePe = p.freePe - count
  inside : (first + count : Int) ≤ p.peCount
  was_free : FreeRun (FreePe p.peBitmap) first count
  test_eq : ∀ pe, Bitmap.test changed.peBitmap pe =
    (Bitmap.test p.peBitmap pe || decide (first ≤ pe ∧ pe < first + count))

/-- Marking a free run removes exactly the run from the free PEs. -/
theorem PvAllocated.clearPes_eq {p changed : Pv} {first count : Nat}
    (h : PvAllocated p changed first count) :
    changed.clearPes = p.clearPes \ Finset.Ico first (first + count) := by
  ext pe
  simp only [Pv.clearPes, h.peCount_eq, h.test_eq, Finset.mem_filter,
    Finset.mem_range, Finset.mem_sdiff, Finset.mem_Ico, Bool.or_eq_false_iff,
    decide_eq_false_iff_not]
  exact and_assoc.symm

/-- The run is a part of the free PEs, so the counter drops by its length. -/
theorem PvAllocated.card_clearPes {p changed : Pv} {first count : Nat}
    (h : PvAllocated p changed first count) :
    changed.clearPes.card + count = p.clearPes.card := by
  have hcard := Finset.card_sdiff_add_card_eq_card
    (FreeRun.subset_clearPes h.was_free h.inside)
  rw [← h.clearPes_eq, Nat.card_Ico] at hcard
  omega

theorem PvAllocated.valid {p changed : Pv} {first count : Nat}
    (h : PvAllocated p changed first count) (hp : p.Valid) :
    changed.Valid where
  peCount_eq := by
    rw [h.peCount_eq, h.size_eq, hp.peCount_eq]
  fits := by
    rw [h.peCount_eq]
    exact hp.fits
  tail_clear := by
    intro pe hset
    rw [h.test_eq, Bool.or_eq_true, decide_eq_true_eq] at hset
    rw [h.peCount_eq]
    rcases hset with hold | hnew
    · exact hp.tail_clear pe hold
    · have := h.inside
      omega
  freePe_eq := by
    have hcard := h.card_clearPes
    rw [h.freePe_eq, hp.freePe_eq]
    omega

/-- A volume whose counter is the number of its free PEs, each of which has a
bit. -/
structure Pv.CountsFree (p : Pv) : Prop where
  fits : p.peCount < 2 ^ 31
  bitmap_length : p.peCount ≤ 64 * p.peBitmap.length
  freePe_eq : p.freePe = p.clearPes.card

theorem Pv.Valid.countsFree {p : Pv} (h : p.Valid) (hmapped : p.Mapped) :
    p.CountsFree :=
  ⟨h.fits, hmapped, h.freePe_eq⟩

/-- A free run inside the volume is counted. -/
theorem Pv.CountsFree.le_freePe {p : Pv} {first count : Nat}
    (h : p.CountsFree) (hrun : FreeRun (FreePe p.peBitmap) first count)
    (hinside : (first + count : Int) ≤ p.peCount) :
    (count : Int) ≤ p.freePe := by
  have hcard := Finset.card_le_card (FreeRun.subset_clearPes hrun hinside)
  rw [Nat.card_Ico] at hcard
  rw [h.freePe_eq]
  omega

/-- A successful `pv_alloc` marks the lowest run, and the counter drops by its
length. -/
theorem Pv.CountsFree.pvAlloc_some {p changed : Pv} {count : Nat} {start : Int}
    (hp : p.CountsFree) (hcount : 0 < count)
    (halloc : pvAlloc p count = some (changed, start)) :
    ∃ first : Nat, start = first ∧
      FirstRun (FreePe p.peBitmap) p.peCount.toNat count first ∧
      PvAllocated p changed first count ∧
      changed.peBitmap.length = p.peBitmap.length := by
  obtain ⟨first, rfl, hfirst, rfl⟩ := pvAlloc_eq_some hcount halloc
  have hlimit := hfirst.inside
  have hlength := hp.bitmap_length
  have hinside : (first + count : Int) ≤ p.peCount := by omega
  -- The run is free, so the counter is at least `count` and cannot wrap.
  have hle := hp.le_freePe hfirst.run hinside
  have hmax : p.freePe ≤ p.peCount := by
    have hcard := p.card_clearPes_le
    rw [hp.freePe_eq]
    omega
  have hfits := hp.fits
  have hallocated : PvAllocated p { p with
      peBitmap := Bitmap.setRange p.peBitmap first count
      freePe := wrap32 (p.freePe - count) } first count :=
    { size_eq := rfl
      peCount_eq := rfl
      freePe_eq := wrap32_of_fitsInt ⟨by omega, by omega⟩
      inside := hinside
      was_free := hfirst.run
      test_eq := Bitmap.test_setRange p.peBitmap (by omega) }
  exact ⟨first, rfl, hfirst, hallocated, Bitmap.length_setRange _ _ _⟩

/-- A successful `pv_alloc` on a valid volume. -/
theorem pvAlloc_some {p changed : Pv} {count : Nat} {start : Int}
    (hcount : 0 < count) (hp : p.Valid) (hmapped : p.Mapped)
    (halloc : pvAlloc p count = some (changed, start)) :
    ∃ first : Nat, start = first ∧
      FirstRun (FreePe p.peBitmap) p.peCount.toNat count first ∧
      PvAllocated p changed first count ∧ changed.Valid := by
  obtain ⟨first, hstart, hfirst, hallocated, -⟩ :=
    (hp.countsFree hmapped).pvAlloc_some hcount halloc
  exact ⟨first, hstart, hfirst, hallocated, hallocated.valid hp⟩

/-- A valid volume with a free PE by its counter has room for one PE. -/
theorem pvAlloc_one_isSome {p : Pv} (hp : p.Valid) (hfree : 1 ≤ p.freePe) :
    ∃ changed start, pvAlloc p 1 = some (changed, start) := by
  rcases pvAlloc_spec p Nat.one_pos with ⟨first, _, hresult⟩ | ⟨_, hnone⟩
  · exact ⟨_, _, hresult⟩
  · exfalso
    have hpos : 0 < p.clearPes.card := by
      have := hp.freePe_eq
      omega
    obtain ⟨pe, hpe⟩ := Finset.card_pos.mp hpos
    rw [Pv.clearPes, Finset.mem_filter, Finset.mem_range] at hpe
    apply hnone pe (by omega)
    intro slot hle hlt
    have hslot : slot = pe := by omega
    rw [hslot]
    exact hpe.2

end Lvm
end OsKernel
