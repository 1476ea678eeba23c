import OsKernel.Lib.WeightedXor
import OsKernel.Raid.Rebuild

/-!
# The parity in place of a block

The parity of a stripe and any one of its blocks can change places: the parity
of the blocks, with the parity itself in place of block `j`, is block `j`.  The
plain parity of RAID 6 is the one of RAID 5.
-/

namespace OsKernel
namespace SoftRaid

open Lib

/-- The bytes of a row of the array `data`. -/
def blockBytes : Nat := 8

/-- A column of the blocks, with another block in one row. -/
theorem column_set (data : List (List (BitVec 8))) (j i : Nat)
    (block : List (BitVec 8)) :
    (data.set j block).map (fun b => b.getD i 0) =
      (data.map fun b => b.getD i 0).set j (block.getD i 0) :=
  List.map_set

/-- The first bytes of a block, one by one. -/
theorem take_eq_map_range {block : List (BitVec 8)} {stripeLen : Nat}
    (hlen : stripeLen ≤ block.length) :
    block.take stripeLen =
      (List.range stripeLen).map fun i => block.getD i 0 := by
  apply List.ext_getElem?
  intro i
  rcases Nat.lt_or_ge i stripeLen with hi | hi
  · have hin : i < block.length := by omega
    simp [hi, hin]
  · simp [Nat.not_lt.mpr hi]

/-- The plain parity of RAID 6. -/
theorem raid6CalcDoubleParity_fst (data : List (List (BitVec 8)))
    (stripeLen : Nat) :
    (raid6CalcDoubleParity data stripeLen).1 =
      raid5CalcParity data stripeLen := by
  rw [raid5CalcParity_eq, raid6CalcDoubleParity]
  simp only [List.map_map]
  apply List.map_congr_left
  intro i _
  have hfold := foldl_xor_pair_eq
    (fun block : List (BitVec 8) × Nat => block.1.getD i 0)
    (fun block => weighted (data.length - block.2) (block.1.getD i 0))
    data.zipIdx (0, 0)
  have hblocks : data.map (fun block => block.getD i 0) =
      data.zipIdx.map fun block => block.1.getD i 0 := by
    conv_lhs => rw [← List.zipIdx_map_fst 0 data, List.map_map]
    rfl
  refine (congrArg Prod.fst hfold).trans ?_
  rw [hblocks]
  exact BitVec.zero_xor

/-- A block is the parity of the stripe in which its row holds the parity, and
both parity routines compute that parity. -/
theorem parity_recovers (data : List (List (BitVec 8))) {stripeLen : Nat}
    (hblocks : ∀ block ∈ data, block.length = blockBytes)
    (hlen : stripeLen ≤ blockBytes) :
    (∀ j block row, data[j]? = some block →
      row.take stripeLen = raid5CalcParity data stripeLen →
      raid5CalcParity (data.set j row) stripeLen = block.take stripeLen) ∧
    (raid6CalcDoubleParity data stripeLen).1 =
      raid5CalcParity data stripeLen := by
  refine ⟨?_, raid6CalcDoubleParity_fst data stripeLen⟩
  intro j block row hblock hrow
  have hlength := hblocks block (List.mem_of_getElem? hblock)
  rw [raid5CalcParity_eq, take_eq_map_range (hlen.trans hlength.ge)]
  apply List.map_congr_left
  intro i hi
  rw [List.mem_range] at hi
  -- byte `i` of the row is the sum of column `i`
  have hparity : row.getD i 0 =
      xorAll (data.map fun b => b.getD i 0) := by
    have hbyte := congrArg (fun bytes => bytes.getD i 0) hrow
    simpa [raid5CalcParity_eq, List.getD_eq_getElem?_getD, hi,
      List.getElem?_take] using hbyte
  have hcolumn : (data.map fun b => b.getD i 0)[j]? = some (block.getD i 0) := by
    rw [List.getElem?_map, hblock]
    rfl
  rw [column_set, hparity]
  exact xorAll_set_xorAll hcolumn

/-- Three blocks, of which the second is replaced by the parity. -/
theorem parity_recovers_second :
    raid5CalcParity [[1, 2, 3, 4, 5, 6, 7, 8], [4, 0, 0xF0, 7, 0, 0, 0, 0],
      [9, 8, 7, 6, 5, 4, 3, 2]] 4 = [12, 10, 0xF4, 5] ∧
    raid5CalcParity [[1, 2, 3, 4, 5, 6, 7, 8], [12, 10, 0xF4, 5],
      [9, 8, 7, 6, 5, 4, 3, 2]] 4 = [4, 0, 0xF0, 7] :=
  ⟨by decide, (parity_recovers [[1, 2, 3, 4, 5, 6, 7, 8],
    [4, 0, 0xF0, 7, 0, 0, 0, 0], [9, 8, 7, 6, 5, 4, 3, 2]] (by decide)
    (by decide)).1 1 _ [12, 10, 0xF4, 5] rfl (by decide)⟩

end SoftRaid
end OsKernel
