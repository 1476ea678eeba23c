import OsKernel.Lib.Xor
import OsKernel.Raid.Model

/-!
# Rebuilding a lost RAID 5 disk

In a stripe whose members sum to zero under exclusive or, the lost member is
the sum of all others.  `raid5_rebuild_stripe` collects all others and then
sums one buffer less than it collected.  What it writes is therefore the lost
member changed by the last of the others, so it is right exactly when that one
is zero (`raid5RebuildStripe_eq_iff`).
-/

namespace OsKernel
namespace SoftRaid

open Lib

/-- The members of a stripe other than disk `failed`, in disk order. -/
def otherDisks (n failed : Nat) : List Nat :=
  (List.range (n + 1)).filter fun i => i ≠ failed

/-- Byte `j` of every member of the stripe sums to zero. -/
def StripeSumsToZero (n : Nat) (stripe : Nat → Nat → BitVec 8) : Prop :=
  ∀ j, j < sectorSize →
    xorAll ((List.range (n + 1)).map fun i => stripe i j) = 0

/-- Every member but `failed` is present and healthy and holds its part of the
stripe in sector `sector`. -/
def OthersHealthy (r : Raid) (n failed sector : Nat)
    (stripe : Nat → Nat → BitVec 8) : Prop :=
  ∀ i, i ≤ n → i ≠ failed → ∃ d, r.disks[i]? = some (some d) ∧
    d.faulty = false ∧ ∀ j, j < sectorSize → d.content sector j = stripe i j

/-- The last disk other than `failed`. -/
def lastOther (n failed : Nat) : Nat := if failed = n then n - 1 else n

/-! ## What the loops compute -/

/-- The collecting loop from disk `i` on fills one buffer for each remaining
disk other than the failed one. -/
theorem collectBuffers_eq {failed sector len : Nat}
    {stripe : Nat → Nat → BitVec 8} (remaining i : Nat)
    (disks : List (Option MockDisk))
    (hdisks : ∀ k, i ≤ k → k < i + remaining → k ≠ failed →
      ∃ d, disks[k]? = some (some d) ∧ d.faulty = false ∧
        ∀ j, j < len → d.content sector j = stripe k j) :
    (collectBuffers failed sector len remaining i disks).2 =
      ((List.range' i remaining).filter fun k => k ≠ failed).map
        fun k => (List.range len).map (stripe k) := by
  induction remaining generalizing i disks with
  | zero => rfl
  | succ remaining ih =>
      rw [List.range'_succ, collectBuffers]
      by_cases hfailed : i = failed
      · rw [if_pos (by exact_mod_cast hfailed),
          List.filter_cons_of_neg (by simpa using hfailed)]
        apply ih
        intro k hle hlt hne
        exact hdisks k (by omega) (by omega) hne
      · obtain ⟨d, hd, hhealthy, hcontent⟩ :=
          hdisks i le_rfl (by omega) hfailed
        have hget : disks.getD i none = some d := by
          rw [List.getD_eq_getElem?_getD, hd, Option.getD_some]
        have hread : (diskRead d sector len).2 =
            (List.range len).map (stripe i) := by
          simp only [diskRead, hhealthy, Bool.false_eq_true, if_false]
          apply List.map_congr_left
          intro j hj
          exact hcontent j (List.mem_range.mp hj)
        rw [if_neg (by exact_mod_cast hfailed),
          List.filter_cons_of_pos (by simpa using hfailed)]
        simp only [hget, hhealthy, Bool.false_eq_true, if_false,
          List.map_cons, hread]
        congr 1
        apply ih
        intro k hle hlt hne
        -- Reading disk `i` changes its counter only, not the disks after it.
        rw [List.getElem?_set_ne (by omega)]
        exact hdisks k (by omega) (by omega) hne

/-- The xor loop computes the sum of every column. -/
theorem xorBuffers_map_eq (len : Nat) (stripe : Nat → Nat → BitVec 8)
    (members : List Nat) :
    xorBuffers len (members.map fun k => (List.range len).map (stripe k)) =
      (List.range len).map fun j => xorAll (members.map fun k => stripe k j) := by
  have hloop : ∀ acc : Nat → BitVec 8,
      (members.map fun k => (List.range len).map (stripe k)).foldl
        (fun result buffer => List.zipWith (· ^^^ ·) result buffer)
        ((List.range len).map acc) =
      (List.range len).map fun j =>
        acc j ^^^ xorAll (members.map fun k => stripe k j) := by
    induction members with
    | nil => intro acc; simp
    | cons k members ih =>
        intro acc
        rw [List.map_cons, List.foldl_cons, List.zipWith_map,
          List.zipWith_self, ih]
        apply List.map_congr_left
        intro j _
        rw [List.map_cons, xorAll_cons, BitVec.xor_assoc]
  have hzero : List.replicate len (0 : BitVec 8) =
      (List.range len).map fun _ => 0 := by
    simp [List.map_const']
  unfold xorBuffers
  rw [hzero, hloop]
  simp

/-- `raid5_calc_parity` computes the sum of every column. -/
theorem raid5CalcParity_eq (data : List (List (BitVec 8))) (stripeLen : Nat) :
    raid5CalcParity data stripeLen =
      (List.range stripeLen).map fun i =>
        xorAll (data.map fun block => block.getD i 0) := by
  apply List.map_congr_left
  intro i _
  have hloop := foldl_xor_eq (data.map fun block => block.getD i 0) 0
  rwa [List.foldl_map, BitVec.ofNat_eq_ofNat, BitVec.zero_xor] at hloop

/-- The blocks and their parity sum to zero in every column. -/
theorem xorAll_raid5CalcParity (data : List (List (BitVec 8)))
    {stripeLen j : Nat} (hj : j < stripeLen) :
    xorAll ((data ++ [raid5CalcParity data stripeLen]).map
      fun block => block.getD j 0) = 0 := by
  have hparity : (raid5CalcParity data stripeLen).getD j 0 =
      xorAll (data.map fun block => block.getD j 0) := by
    rw [raid5CalcParity_eq]
    simp [List.getD_eq_getElem?_getD, hj]
  rw [List.map_append, List.map_singleton, hparity, xorAll_append,
    xorAll_cons, xorAll_nil, BitVec.xor_zero, BitVec.xor_self]
  rfl

/-! ## The members of a stripe -/

theorem range_perm_otherDisks {n failed : Nat} (hfailed : failed ≤ n) :
    (List.range (n + 1)).Perm (failed :: otherDisks n failed) := by
  have herase : (List.range (n + 1)).erase failed = otherDisks n failed := by
    rw [List.nodup_range.erase_eq_filter]
    apply List.filter_congr
    intro i _
    simp [bne, Bool.beq_eq_decide_eq]
  rw [← herase]
  exact List.perm_cons_erase (List.mem_range.mpr (by omega))

theorem length_otherDisks {n failed : Nat} (hfailed : failed ≤ n) :
    (otherDisks n failed).length = n := by
  have hlength := (range_perm_otherDisks hfailed).length_eq
  rw [List.length_range, List.length_cons] at hlength
  omega

/-- The last disk other than the failed one ends the list of the others. -/
theorem otherDisks_eq_append {n failed : Nat} (hpos : 0 < n)
    (hfailed : failed ≤ n) :
    otherDisks n failed =
      (otherDisks n failed).dropLast ++ [lastOther n failed] := by
  obtain ⟨front, hfront⟩ : ∃ front,
      otherDisks n failed = front ++ [lastOther n failed] := by
    by_cases hlast : failed = n
    · -- Without disk `n` the others are the disks below it.
      obtain ⟨m, rfl⟩ := Nat.exists_eq_succ_of_ne_zero (by omega : n ≠ 0)
      refine ⟨List.range m, ?_⟩
      have hall : otherDisks (m + 1) failed = List.range (m + 1) := by
        unfold otherDisks
        rw [List.range_succ, List.filter_append]
        have hkeep : (List.range (m + 1)).filter (fun i => i ≠ failed) =
            List.range (m + 1) := by
          apply List.filter_eq_self.mpr
          intro i hi
          rw [List.mem_range] at hi
          simp only [decide_eq_true_eq]
          omega
        rw [hkeep]
        simp [hlast]
      rw [hall, List.range_succ]
      simp [lastOther, hlast]
    · refine ⟨(List.range n).filter fun i => i ≠ failed, ?_⟩
      unfold otherDisks lastOther
      rw [List.range_succ, List.filter_append, if_neg hlast]
      simp [Ne.symm hlast]
  rw [hfront, List.dropLast_concat]

/-- The lost member is the sum of the others. -/
theorem xorAll_otherDisks {n failed j : Nat} {stripe : Nat → Nat → BitVec 8}
    (hfailed : failed ≤ n) (hzero : StripeSumsToZero n stripe)
    (hj : j < sectorSize) :
    xorAll ((otherDisks n failed).map fun k => stripe k j) = stripe failed j := by
  apply xorAll_eq_of_cons_eq_zero
  rw [← hzero j hj]
  have hperm := (range_perm_otherDisks hfailed).map fun k => stripe k j
  exact (xorAll_perm hperm).symm

/-- Leaving out the last of the others leaves the lost member changed by it. -/
theorem xorAll_dropLast_eq_iff {n failed j : Nat}
    {stripe : Nat → Nat → BitVec 8} (hfailed : failed ≤ n)
    (hzero : StripeSumsToZero n stripe) (hj : j < sectorSize) :
    xorAll ((otherDisks n failed).dropLast.map fun k => stripe k j) =
        stripe failed j ↔
      stripe (lastOther n failed) j = 0 := by
  have hsum := xorAll_otherDisks hfailed hzero hj
  by_cases hpos : 0 < n
  · rw [otherDisks_eq_append hpos hfailed, List.map_append, xorAll_append,
      List.map_singleton, xorAll_cons, xorAll_nil, BitVec.xor_zero] at hsum
    rw [← xor_eq_left_iff, eq_comm, hsum]
  · -- A single disk: it is its own stripe and sums to zero.
    obtain rfl : n = 0 := by omega
    obtain rfl : failed = 0 := by omega
    have hempty : otherDisks 0 0 = [] := by decide
    rw [hempty] at hsum ⊢
    simp only [List.map_nil, List.dropLast_nil, xorAll_nil] at hsum ⊢
    simp [lastOther, hsum.symm]

/-! ## What a rebuild writes -/

/-- A rebuild always writes: the sum of all other members but the last. -/
theorem raid5RebuildStripe_eq {r : Raid} {n failed sector len : Nat}
    {stripe : Nat → Nat → BitVec 8} (hn : r.dataDisks = n)
    (hmax : n + 1 ≤ maxDisks) (hfailed : failed ≤ n) (hlen : len ≤ sectorSize)
    (hothers : OthersHealthy r n failed sector stripe) :
    (raid5RebuildStripe r failed sector len).2 =
      some ((List.range len).map fun j =>
        xorAll ((otherDisks n failed).dropLast.map fun k => stripe k j)) := by
  have hcount : (wrap32 (r.dataDisks + 1)).toNat = n + 1 := by
    have hfits : FitsInt ((n : Int) + 1) := by
      simp only [maxDisks] at hmax
      exact ⟨by omega, by omega⟩
    rw [hn, wrap32_of_fitsInt hfits]
    omega
  have hbuffers : (collectBuffers failed sector len (n + 1) 0 r.disks).2 =
      (otherDisks n failed).map fun k => (List.range len).map (stripe k) := by
    have hdisks : ∀ k, 0 ≤ k → k < 0 + (n + 1) → k ≠ failed →
        ∃ d, r.disks[k]? = some (some d) ∧ d.faulty = false ∧
          ∀ j, j < len → d.content sector j = stripe k j := by
      intro k _ hk hne
      obtain ⟨d, hd, hhealthy, hcontent⟩ := hothers k (by omega) hne
      exact ⟨d, hd, hhealthy, fun j hj => hcontent j (by omega)⟩
    rw [collectBuffers_eq (n + 1) 0 r.disks hdisks, ← List.range_eq_range']
    rfl
  simp only [raid5RebuildStripe, hcount, hbuffers, List.length_map,
    length_otherDisks hfailed]
  rw [if_pos (by rw [hn]), ← List.map_take, xorBuffers_map_eq, List.dropLast_eq_take,
    length_otherDisks hfailed]

/-- A rebuild is right exactly when the first `len` bytes of the last other
disk are zero. -/
theorem raid5RebuildStripe_eq_iff {r : Raid} {n failed sector len : Nat}
    {stripe : Nat → Nat → BitVec 8} (hn : r.dataDisks = n)
    (hmax : n + 1 ≤ maxDisks) (hfailed : failed ≤ n) (hlen : len ≤ sectorSize)
    (hothers : OthersHealthy r n failed sector stripe)
    (hzero : StripeSumsToZero n stripe) :
    (raid5RebuildStripe r failed sector len).2 =
        some ((List.range len).map (stripe failed)) ↔
      ∀ j, j < len → stripe (lastOther n failed) j = 0 := by
  rw [raid5RebuildStripe_eq hn hmax hfailed hlen hothers, Option.some.injEq,
    List.map_inj_left]
  constructor
  · intro h j hj
    exact (xorAll_dropLast_eq_iff hfailed hzero (by omega)).mp
      (h j (List.mem_range.mpr hj))
  · intro h j hj
    rw [List.mem_range] at hj
    exact (xorAll_dropLast_eq_iff hfailed hzero (by omega)).mpr (h j hj)

/-- Four disks whose sectors repeat one byte each; disk `1` has failed. -/
def uniformRaid (bytes : List (BitVec 8)) : Raid where
  dataDisks := 3
  chunkSectors := 128
  disks := (List.range 4).map fun i =>
    some ⟨i == 1, 0, fun _ _ => bytes.getD i 0⟩

theorem uniformRaid_othersHealthy (bytes : List (BitVec 8)) :
    OthersHealthy (uniformRaid bytes) 3 1 0 fun i _ => bytes.getD i 0 := by
  intro i hi hne
  refine ⟨⟨i == 1, 0, fun _ _ => bytes.getD i 0⟩, ?_, ?_, fun _ _ => rfl⟩
  · simp [uniformRaid, show i < 4 by omega]
  · simpa using hne

/-- With a zero parity disk the rebuild of disk `1` is right. -/
theorem raid5RebuildStripe_zero_parity :
    (raid5RebuildStripe (uniformRaid [0x11, 0xAA, 0xBB, 0x00]) (1 : Nat) 0
      512).2 = some ((List.range 512).map fun _ => 0xAA) :=
  (raid5RebuildStripe_eq_iff rfl (by decide) (by decide) le_rfl
    (uniformRaid_othersHealthy [0x11, 0xAA, 0xBB, 0x00])
    (fun _ _ => by decide)).mpr (fun _ _ => by decide)

/-- The same array with another block: the rebuild of disk `1` leaves out the
parity and writes `0x11 ^ 0x12` in place of `0xAA`. -/
theorem raid5RebuildStripe_wrong :
    OthersHealthy (uniformRaid [0x11, 0xAA, 0x12, 0xA9]) 3 1 0
        (fun i _ => [0x11, 0xAA, 0x12, 0xA9].getD i 0) ∧
      StripeSumsToZero 3 (fun i _ => [0x11, 0xAA, 0x12, 0xA9].getD i 0) ∧
      (raid5RebuildStripe (uniformRaid [0x11, 0xAA, 0x12, 0xA9]) (1 : Nat) 0
        2).2 = some [0x03, 0x03] ∧
      (raid5RebuildStripe (uniformRaid [0x11, 0xAA, 0x12, 0xA9]) (1 : Nat) 0
        2).2 ≠ some ((List.range 2).map fun _ => 0xAA) := by
  refine ⟨uniformRaid_othersHealthy _, ?_, by decide, by decide⟩
  intro j _
  show xorAll [0x11#8, 0xAA#8, 0x12#8, 0xA9#8] = 0
  decide

end SoftRaid
end OsKernel
