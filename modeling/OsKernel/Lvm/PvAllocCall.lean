import OsKernel.Lvm.FreeCount

/-!
# One call of `pv_alloc`

`pvAlloc` gives the changed volume where the call succeeds.  Here the call is
taken with everything it can write: the volume, `*out_start` and the result.  It
either takes the lowest run of `count` free PEs or leaves everything as it was.

The indices of both loops stay below `pe_count`, an `int`; only the counter can
leave the range, if it was already far below zero.
-/

namespace OsKernel
namespace Lvm

open Lib
open Lib.FirstFit

/-- The volume, `*out_start` and the result after a call of `pv_alloc`. -/
structure PvAllocResult where
  pv : Pv
  outStart : Int
  ret : Int
  deriving DecidableEq, Repr

/-- `pv_alloc` on a volume, with `*out_start` as it was before. -/
def pvAllocCall (p : Pv) (count outStart : Int) : PvAllocResult :=
  match pvAlloc p count with
  | some (changed, start) => { pv := changed, outStart := start, ret := 0 }
  | none => { pv := p, outStart := outStart, ret := -1 }

/-- The call has taken the lowest run of `count` free PEs, which begins at
`first`: it has set the bits of the run, as far as the bitmap has bits, and
changed no other bit. -/
structure PvAllocResult.Takes (result : PvAllocResult) (p : Pv)
    (count first : Nat) : Prop where
  lowest : FirstRun (FreePe p.peBitmap) p.peCount.toNat count first
  outStart : result.outStart = first
  marked : ∀ pe, first ≤ pe → pe < first + count →
    pe < 64 * p.peBitmap.length → Bitmap.test result.pv.peBitmap pe = true
  others : ∀ pe, ¬ (first ≤ pe ∧ pe < first + count) →
    Bitmap.test result.pv.peBitmap pe = Bitmap.test p.peBitmap pe
  words : result.pv.peBitmap.length = p.peBitmap.length
  freePe : result.pv.freePe = wrap32 (p.freePe - count)
  freePe_exact : FitsInt (p.freePe - count) →
    result.pv.freePe = p.freePe - count
  size : result.pv.size = p.size
  peCount : result.pv.peCount = p.peCount

section
variable {p : Pv} {count : Nat}

/-- Where there is a run, the lowest one is taken. -/
theorem pvAllocCall_of_hasRun (hcount : 0 < count) (hrun : p.HasRun count)
    (outStart : Int) :
    (pvAllocCall p count outStart).ret = 0 ∧
      ∃ first, (pvAllocCall p count outStart).Takes p count first := by
  rcases pvAlloc_spec p hcount with ⟨first, hfirst, hsome⟩ | ⟨hnone, -⟩
  · rw [pvAllocCall, hsome]
    have htest := Bitmap.test_setRange_eq p.peBitmap first count
    refine ⟨rfl, first, ?_⟩
    constructor
    · exact hfirst
    · rfl
    · intro pe hle hlt hbit
      rw [htest, decide_eq_true ⟨⟨hle, hlt⟩, hbit⟩, Bool.or_true]
    · intro pe hout
      rw [htest, decide_eq_false fun hin => hout hin.1, Bool.or_false]
    · exact Bitmap.length_setRange _ _ _
    · rfl
    · exact wrap32_of_fitsInt
    · rfl
    · rfl
  · exact absurd hrun ((pvAlloc_eq_none_iff p hcount).mp hnone)

/-- Where there is none, nothing is written. -/
theorem pvAllocCall_of_not_hasRun (hcount : 0 < count)
    (hrun : ¬ p.HasRun count) (outStart : Int) :
    pvAllocCall p count outStart = ⟨p, outStart, -1⟩ := by
  rw [pvAllocCall, (pvAlloc_eq_none_iff p hcount).mpr hrun]

end

/-- `pv_alloc` is first-fit.  It returns 0 exactly when there is a run of
`count` free PEs in the volume, and has then taken the lowest one; otherwise it
returns -1 and has written nothing. -/
theorem pvAllocCall_firstFit (p : Pv) {count : Nat} (hcount : 1 ≤ count)
    (outStart : Int) :
    ((pvAllocCall p count outStart).ret = 0 ↔ p.HasRun count) ∧
    ((pvAllocCall p count outStart).ret = 0 →
      ∃ first, (pvAllocCall p count outStart).Takes p count first) ∧
    ((pvAllocCall p count outStart).ret ≠ 0 →
      pvAllocCall p count outStart = ⟨p, outStart, -1⟩) := by
  by_cases hrun : p.HasRun count
  · obtain ⟨hret, htakes⟩ := pvAllocCall_of_hasRun hcount hrun outStart
    exact ⟨iff_of_true hret hrun, fun _ => htakes, fun hne => absurd hret hne⟩
  · have hcall := pvAllocCall_of_not_hasRun hcount hrun outStart
    have hret : (pvAllocCall p count outStart).ret ≠ 0 := by
      rw [hcall]
      show (-1 : Int) ≠ 0
      decide
    exact ⟨iff_of_false hret hrun, fun hzero => absurd hzero hret,
      fun _ => hcall⟩

/-- A volume of 100 PEs in two words, of which PE 3 and the PEs from 62 to 65
are free, and some bits behind the PEs are set. -/
def acrossWords : Pv :=
  { size := 204800
    peCount := 100
    peBitmap := [0x3ffffffffffffff7, 0xf0fffffffffffffc]
    freePe := 5 }

/-- Three PEs are taken across the end of the first word, and PE 3 is passed
over. -/
theorem pvAllocCall_firstFit_acrossWords :
    (pvAllocCall acrossWords 3 (-7)).pv.peBitmap =
      [0xfffffffffffffff7, 0xf0fffffffffffffd] ∧
    ∃ first, (pvAllocCall acrossWords 3 (-7)).Takes acrossWords 3 first :=
  ⟨by decide +kernel, (pvAllocCall_firstFit acrossWords (by decide) (-7)).2.1
    (by decide +kernel)⟩

end Lvm
end OsKernel
