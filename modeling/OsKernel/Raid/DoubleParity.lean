import OsKernel.Lib.WeightedXor
import OsKernel.Raid.Model

/-!
# Two lost blocks in RAID 6

`raid6_calc_double_parity` weights block `j` of `n` by the integer `n - j`, not
by an element of the field the comment above it names.  Two lost blocks are
determined by the parities and the other blocks exactly when one weight is even
and the other odd, that is, when one block has an even position and the other
an odd one (`raid6_recovers_iff`).
-/

namespace OsKernel
namespace SoftRaid

open Lib

variable {n len : Nat}

/-- A stripe of `n` data blocks of `len` bytes. -/
abbrev Stripe (n len : Nat) := Fin n → Fin len → BitVec 8

/-- The array `data` of the stripe. -/
def Stripe.blocks (stripe : Stripe n len) : List (List (BitVec 8)) :=
  List.ofFn fun j => List.ofFn (stripe j)

/-- The two parities of a stripe. -/
def Stripe.parities (stripe : Stripe n len) :
    List (BitVec 8) × List (BitVec 8) :=
  raid6CalcDoubleParity stripe.blocks len

/-- The bytes of the parities at position `i` and those of the other blocks
determine the bytes of blocks `j` and `k`. -/
def RecoversAt (j k : Fin n) (i : Fin len) : Prop :=
  ∀ stripe stripe' : Stripe n len,
    (∀ d, d ≠ j → d ≠ k → stripe d i = stripe' d i) →
    stripe.parities.1[i.val]? = stripe'.parities.1[i.val]? →
    stripe.parities.2[i.val]? = stripe'.parities.2[i.val]? →
    stripe j i = stripe' j i ∧ stripe k i = stripe' k i

/-- Two stripes that agree in all blocks but `j` and `k` and have the same
parities are equal. -/
def Recovers (len : Nat) (j k : Fin n) : Prop :=
  ∀ stripe stripe' : Stripe n len,
    (∀ d, d ≠ j → d ≠ k → stripe d = stripe' d) →
    stripe.parities = stripe'.parities → stripe = stripe'

/-! ## What the loops compute -/

/-- Column `i` of the plain parity. -/
def Stripe.plainSum (stripe : Stripe n len) (i : Fin len) : BitVec 8 :=
  xorAll ((List.finRange n).map fun j => stripe j i)

/-- Column `i` of the weighted parity. -/
def Stripe.weightedSum (stripe : Stripe n len) (i : Fin len) : BitVec 8 :=
  xorAll ((List.finRange n).map fun j => weighted (n - j.val) (stripe j i))

theorem Stripe.zipIdx_blocks (stripe : Stripe n len) :
    stripe.blocks.zipIdx =
      (List.finRange n).map fun j => (List.ofFn (stripe j), j.val) := by
  apply List.ext_getElem
  · simp [Stripe.blocks]
  · intro j hj hj'
    simp [Stripe.blocks]

/-- The loop over the blocks at one byte position. -/
theorem Stripe.foldl_column (stripe : Stripe n len) (i : Fin len) :
    stripe.blocks.zipIdx.foldl
      (fun (pp, qq) (block, j) =>
        (pp ^^^ block.getD i 0,
          qq ^^^ BitVec.ofNat 8 ((block.getD i 0).toNat * (n - j))))
      ((0, 0) : BitVec 8 × BitVec 8) =
      (stripe.plainSum i, stripe.weightedSum i) := by
  have hfold := foldl_xor_pair_eq
    (fun block : List (BitVec 8) × Nat => block.1.getD i 0)
    (fun block => weighted (n - block.2) (block.1.getD i 0))
    stripe.blocks.zipIdx (0, 0)
  refine hfold.trans ?_
  simp [Stripe.zipIdx_blocks, Stripe.plainSum, Stripe.weightedSum,
    Function.comp_def]

theorem Stripe.parities_eq (stripe : Stripe n len) :
    stripe.parities =
      (List.ofFn stripe.plainSum, List.ofFn stripe.weightedSum) := by
  have hlength : stripe.blocks.length = n := List.length_ofFn
  rw [Stripe.parities, raid6CalcDoubleParity, hlength]
  simp only [List.map_map]
  refine Prod.ext (List.ext_getElem (by simp) ?_)
    (List.ext_getElem (by simp) ?_)
  · intro i hi _
    have hcolumn := stripe.foldl_column ⟨i, by simpa using hi⟩
    simpa using congrArg Prod.fst hcolumn
  · intro i hi _
    have hcolumn := stripe.foldl_column ⟨i, by simpa using hi⟩
    simpa using congrArg Prod.snd hcolumn

/-- Of two stripes that agree off blocks `j` and `k` at position `i`, the
parities there agree exactly when the sums of the two bytes do. -/
theorem Stripe.plainSum_eq_iff {stripe stripe' : Stripe n len} {j k : Fin n}
    (hne : j ≠ k) {i : Fin len}
    (hsame : ∀ d, d ≠ j → d ≠ k → stripe d i = stripe' d i) :
    stripe.plainSum i = stripe'.plainSum i ↔
      stripe j i ^^^ stripe k i = stripe' j i ^^^ stripe' k i :=
  xorAll_map_eq_iff (List.nodup_finRange n) (List.mem_finRange j)
    (List.mem_finRange k) hne hsame

theorem Stripe.weightedSum_eq_iff {stripe stripe' : Stripe n len}
    {j k : Fin n} (hne : j ≠ k) {i : Fin len}
    (hsame : ∀ d, d ≠ j → d ≠ k → stripe d i = stripe' d i) :
    stripe.weightedSum i = stripe'.weightedSum i ↔
      weighted (n - j.val) (stripe j i) ^^^ weighted (n - k.val) (stripe k i) =
        weighted (n - j.val) (stripe' j i) ^^^
          weighted (n - k.val) (stripe' k i) :=
  xorAll_map_eq_iff (List.nodup_finRange n) (List.mem_finRange j)
    (List.mem_finRange k) hne fun d hj hk => by rw [hsame d hj hk]

/-! ## Two lost blocks -/

/-- Two bytes with the weights of blocks `j` and `k` are determined by their
plain and weighted sum. -/
def BytesDetermined (j k : Fin n) : Prop :=
  ∀ x y x' y' : BitVec 8, x ^^^ y = x' ^^^ y' →
    weighted (n - j.val) x ^^^ weighted (n - k.val) y =
      weighted (n - j.val) x' ^^^ weighted (n - k.val) y' →
    x = x' ∧ y = y'

theorem bytesDetermined_iff (j k : Fin n) :
    BytesDetermined j k ↔ j.val % 2 ≠ k.val % 2 := by
  have hparity : (n - j.val) % 2 ≠ (n - k.val) % 2 ↔ j.val % 2 ≠ k.val % 2 := by
    have hj := j.isLt
    have hk := k.isLt
    omega
  exact (two_unknowns_iff 7 _ _).trans hparity

/-- Two blocks filled with one byte each, all others zero. -/
def twoBlocks (len : Nat) (j k : Fin n) (x y : BitVec 8) : Stripe n len :=
  fun d _ => if d = j then x else if d = k then y else 0

theorem twoBlocks_other {j k d : Fin n} (hj : d ≠ j) (hk : d ≠ k)
    (x y : BitVec 8) : twoBlocks len j k x y d = fun _ => 0 := by
  ext i
  simp [twoBlocks, hj, hk]

@[simp] theorem twoBlocks_left (j k : Fin n) (x y : BitVec 8) (i : Fin len) :
    twoBlocks len j k x y j i = x := by
  simp [twoBlocks]

theorem twoBlocks_right {j k : Fin n} (hne : j ≠ k) (x y : BitVec 8)
    (i : Fin len) : twoBlocks len j k x y k i = y := by
  simp [twoBlocks, hne.symm]

/-- Bytes with the same sums make two stripes with the same parities. -/
theorem parities_twoBlocks (len : Nat) {j k : Fin n} (hne : j ≠ k) {x y x' y' : BitVec 8}
    (hsum : x ^^^ y = x' ^^^ y')
    (hweighted : weighted (n - j.val) x ^^^ weighted (n - k.val) y =
      weighted (n - j.val) x' ^^^ weighted (n - k.val) y') :
    (twoBlocks len j k x y).parities = (twoBlocks len j k x' y').parities := by
  have hsame (i : Fin len) (d : Fin n) (hj : d ≠ j) (hk : d ≠ k) :
      twoBlocks len j k x y d i = twoBlocks len j k x' y' d i := by
    rw [twoBlocks_other hj hk, twoBlocks_other hj hk]
  have hplain : (twoBlocks len j k x y).plainSum =
      (twoBlocks len j k x' y').plainSum := by
    ext1 i
    rw [Stripe.plainSum_eq_iff hne (hsame i)]
    simpa [twoBlocks_right hne] using hsum
  have hweights : (twoBlocks len j k x y).weightedSum =
      (twoBlocks len j k x' y').weightedSum := by
    ext1 i
    rw [Stripe.weightedSum_eq_iff hne (hsame i)]
    simpa [twoBlocks_right hne] using hweighted
  rw [Stripe.parities_eq, Stripe.parities_eq, hplain, hweights]

theorem recoversAt_of_bytesDetermined {j k : Fin n} (hne : j ≠ k)
    (hbytes : BytesDetermined j k) (i : Fin len) : RecoversAt j k i := by
  intro stripe stripe' hsame hp hq
  simp only [Stripe.parities_eq, List.getElem?_ofFn, i.isLt, dite_true,
    Fin.eta, Option.some.injEq] at hp hq
  exact hbytes _ _ _ _ ((Stripe.plainSum_eq_iff hne hsame).mp hp)
    ((Stripe.weightedSum_eq_iff hne hsame).mp hq)

theorem recovers_of_recoversAt {j k : Fin n}
    (hat : ∀ i : Fin len, RecoversAt j k i) : Recovers len j k := by
  intro stripe stripe' hsame hparities
  ext1 d
  ext1 i
  obtain ⟨hj, hk⟩ := hat i stripe stripe'
    (fun d hj hk => by rw [hsame d hj hk]) (by rw [hparities])
    (by rw [hparities])
  by_cases hdj : d = j
  · rw [hdj, hj]
  · by_cases hdk : d = k
    · rw [hdk, hk]
    · rw [hsame d hdj hdk]

theorem bytesDetermined_of_recoversAt {j k : Fin n} (hne : j ≠ k)
    {i : Fin len} (hrecovers : RecoversAt j k i) : BytesDetermined j k := by
  intro x y x' y' hsum hweighted
  have hparities := parities_twoBlocks len hne hsum hweighted
  have hbytes := hrecovers (twoBlocks len j k x y) (twoBlocks len j k x' y')
    (fun d hj hk => by rw [twoBlocks_other hj hk, twoBlocks_other hj hk])
    (by rw [hparities]) (by rw [hparities])
  simpa [twoBlocks_right hne] using hbytes

theorem bytesDetermined_of_recovers {j k : Fin n} (hne : j ≠ k)
    (i : Fin len) (hrecovers : Recovers len j k) : BytesDetermined j k := by
  intro x y x' y' hsum hweighted
  have hstripe : twoBlocks len j k x y = twoBlocks len j k x' y' :=
    hrecovers _ _
      (fun d hj hk => by rw [twoBlocks_other hj hk, twoBlocks_other hj hk])
      (parities_twoBlocks len hne hsum hweighted)
  have hj := congrFun (congrFun hstripe j) i
  have hk := congrFun (congrFun hstripe k) i
  rw [twoBlocks_left, twoBlocks_left] at hj
  rw [twoBlocks_right hne, twoBlocks_right hne] at hk
  exact ⟨hj, hk⟩

/-- Two lost blocks of a stripe are determined by the parities and the other
blocks, at one byte position and as whole blocks, exactly when one of them has
an even and the other an odd position. -/
theorem raid6_recovers_iff {j k : Fin n} (hne : j ≠ k) (i : Fin len) :
    (RecoversAt j k i ↔ j.val % 2 ≠ k.val % 2) ∧
      (Recovers len j k ↔ j.val % 2 ≠ k.val % 2) := by
  rw [← bytesDetermined_iff]
  refine ⟨⟨bytesDetermined_of_recoversAt hne, fun hbytes => ?_⟩,
    ⟨bytesDetermined_of_recovers hne i, fun hbytes => ?_⟩⟩
  · exact recoversAt_of_bytesDetermined hne hbytes i
  · exact recovers_of_recoversAt (recoversAt_of_bytesDetermined hne hbytes)

theorem raid6_recovers_neighbours :
    RecoversAt (0 : Fin 4) 1 (7 : Fin 8) ∧ Recovers 8 (0 : Fin 4) 1 :=
  have hrecovers := raid6_recovers_iff (show (0 : Fin 4) ≠ 1 by decide)
    (7 : Fin 8)
  ⟨hrecovers.1.mpr (by decide), hrecovers.2.mpr (by decide)⟩

/-- With three blocks, the first and the last of them can both change in their
top bit and leave both parities as they were. -/
theorem raid6_loses_first_and_last :
    let stripe : Stripe 3 1 := fun _ _ => 0
    let stripe' : Stripe 3 1 := twoBlocks 1 0 2 128 128
    stripe.parities = stripe'.parities ∧ stripe 1 = stripe' 1 ∧
      stripe ≠ stripe' := by
  refine ⟨by decide, by decide, fun hsame => ?_⟩
  exact absurd (congrFun (congrFun hsame 0) 0) (by decide)

end SoftRaid
end OsKernel
