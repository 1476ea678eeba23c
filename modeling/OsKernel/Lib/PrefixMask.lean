import Mathlib.Tactic

/-!
# Masks of leading ones

A contiguous mask has ones in its upper positions and zeros below them.  Such a
mask is determined by the number of its ones.
-/

namespace OsKernel
namespace Lib
namespace PrefixMask

variable {w : Nat}

/-- The number of ones among the lower positions. -/
def onesBelow (x : BitVec w) (limit : Nat) : Nat :=
  (List.range limit).countP x.getLsbD

/-- The mask of `k` leading ones. -/
def leading (w k : Nat) : BitVec w := BitVec.allOnes w <<< (w - k)

/-- All ones of a mask come before its zeros. -/
def Contiguous (mask : BitVec w) : Prop :=
  ∃ k, k < w + 1 ∧ mask = leading w k

instance (mask : BitVec w) : Decidable (Contiguous mask) :=
  inferInstanceAs (Decidable (∃ k, k < w + 1 ∧ mask = leading w k))

@[simp] theorem onesBelow_zero (limit : Nat) :
    onesBelow (0 : BitVec w) limit = 0 := by
  simp [onesBelow]

/-- The lowest one is split off; the others move down by one position. -/
theorem onesBelow_succ (x : BitVec w) (limit : Nat) :
    onesBelow x (limit + 1) =
      (x.getLsbD 0).toNat + onesBelow (x >>> 1) limit := by
  unfold onesBelow
  have hshift : x.getLsbD ∘ Nat.succ = (x >>> 1).getLsbD := by
    funext i
    rw [Function.comp_apply, BitVec.getLsbD_ushiftRight, Nat.succ_eq_one_add]
  rw [List.range_succ_eq_map, List.countP_cons, List.countP_map, hshift,
    Nat.add_comm]
  cases x.getLsbD 0 with
  | true => rfl
  | false => rfl

/-- The positions past the end hold no ones. -/
theorem onesBelow_of_le (x : BitVec w) {limit : Nat} (hle : w ≤ limit) :
    onesBelow x limit = onesBelow x w := by
  induction limit, hle using Nat.le_induction with
  | base => rfl
  | succ limit hle ih =>
      rw [← ih]
      unfold onesBelow
      rw [List.range_succ, List.countP_append]
      simp [BitVec.getLsbD_of_ge x limit hle]

theorem getLsbD_leading (k i : Nat) :
    (leading w k).getLsbD i = decide (w - k ≤ i ∧ i < w) := by
  rw [Bool.eq_iff_iff]
  simp only [leading, BitVec.getLsbD_shiftLeft, BitVec.getLsbD_allOnes,
    Bool.and_eq_true, Bool.not_eq_true', decide_eq_true_eq,
    decide_eq_false_iff_not]
  omega

theorem countP_range_le (low limit : Nat) :
    (List.range limit).countP (fun i => decide (low ≤ i)) = limit - low := by
  induction limit with
  | zero => simp
  | succ limit ih =>
      rw [List.range_succ, List.countP_append, ih]
      by_cases hle : low ≤ limit
      · simp [hle]
        omega
      · simp [hle]
        omega

theorem onesBelow_leading {k : Nat} (hk : k ≤ w) :
    onesBelow (leading w k) w = k := by
  have hcount : onesBelow (leading w k) w =
      (List.range w).countP fun i => decide (w - k ≤ i) := by
    apply List.countP_congr
    intro i hi
    rw [getLsbD_leading]
    simp [List.mem_range.mp hi]
  rw [hcount, countP_range_le]
  omega

/-- Contiguous masks with equally many ones are equal. -/
theorem Contiguous.eq_of_ones {left right : BitVec w} (hleft : Contiguous left)
    (hright : Contiguous right) (h : onesBelow left w = onesBelow right w) :
    left = right := by
  obtain ⟨k, hk, rfl⟩ := hleft
  obtain ⟨l, hl, rfl⟩ := hright
  rw [onesBelow_leading (Nat.lt_succ_iff.mp hk),
    onesBelow_leading (Nat.lt_succ_iff.mp hl)] at h
  rw [h]

end PrefixMask
end Lib
end OsKernel
