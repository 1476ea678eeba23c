import OsKernel.Lib.ResidueWindow
import OsKernel.Raid.Model

/-!
# How often each disk holds the parity

The rotation formula of `raid5_map` adds to the stripe its residue modulo the
number `n` of data disks and reduces modulo `n + 1`.  The sequence of disks
repeats after `n * (n + 1)` stripes, and in every window of that length each
disk comes up `n` times.
-/

namespace OsKernel
namespace SoftRaid

open Lib

/-- The rotation formula over the natural numbers. -/
def rotation (n stripe : Nat) : Nat := (stripe + stripe % n) % (n + 1)

/-- The stripes of a window for which the formula gives a disk. -/
def stripesOf (disk : Nat → Int) (start length : Nat) (d : Int) : Finset Nat :=
  (Finset.Ico start (start + length)).filter fun stripe => disk stripe = d

/-- The formula gives disk `d` exactly if the residue of the stripe modulo
`n + 1` is `d` less its residue modulo `n`. -/
theorem rotation_eq_iff {n d stripe : Nat} (hn : 0 < n) (hd : d ≤ n) :
    rotation n stripe = d ↔
      ResidueWindow.Meets n (n + 1) (fun r => d + (n + 1) - r) stripe := by
  have hr : stripe % n < n := Nat.mod_lt stripe hn
  unfold rotation ResidueWindow.Meets
  have hshift : stripe ≡ d + (n + 1) - stripe % n [MOD n + 1] ↔
      stripe + stripe % n ≡ d + (n + 1) - stripe % n + stripe % n [MOD n + 1] :=
    (Nat.ModEq.add_iff_right rfl).symm
  rw [hshift, Nat.sub_add_cancel (by omega), Nat.ModEq, Nat.add_mod_right,
    Nat.mod_eq_of_lt (show d < n + 1 by omega)]

/-- The formula gives every disk `n` times in a window of `n * (n + 1)`
stripes. -/
theorem card_rotation {n d : Nat} (hn : 0 < n) (hd : d ≤ n) (start : Nat) :
    (stripesOf (fun stripe => (rotation n stripe : Int)) start (n * (n + 1))
      d).card = n := by
  have hcoprime : n.Coprime (n + 1) := by simp
  have hsame : stripesOf (fun stripe => (rotation n stripe : Int)) start
      (n * (n + 1)) d =
      (Finset.Ico start (start + n * (n + 1))).filter
        (ResidueWindow.Meets n (n + 1) fun r => d + (n + 1) - r) := by
    apply Finset.filter_congr
    intro stripe _
    rw [Nat.cast_inj]
    exact rotation_eq_iff hn hd
  rw [hsame]
  exact ResidueWindow.card_window_meets hcoprime hn n.succ_pos _ start

/-- Where the sum does not wrap, `raid5_map` computes the formula. -/
theorem pDisk_eq_rotation {r : Raid} {n stripe : Nat} (hn : r.dataDisks = n)
    (hint : n + 1 < 2 ^ 31) (hwrap : stripe + stripe % n < 2 ^ 64) :
    pDisk r stripe = rotation n stripe := by
  have hdisks : toU64 r.dataDisks = n := by
    rw [hn]
    exact toU64_natCast (by omega)
  have hnext : toU64 (wrap32 (r.dataDisks + 1)) = n + 1 := by
    rw [hn]
    have hfits : wrap32 ((n + 1 : Nat) : Int) = (n + 1 : Nat) :=
      wrap32_natCast hint
    push_cast at hfits
    rw [hfits]
    exact toU64_natCast (x := n + 1) (by omega)
  have hlt : rotation n stripe < n + 1 := Nat.mod_lt _ n.succ_pos
  rw [pDisk, hdisks, hnext, toU64_natCast hwrap]
  exact wrap32_natCast (Nat.lt_trans hlt hint)

/-- In every window of `n * (n + 1)` stripes each of the `n + 1` disks holds the
parity of `n` stripes: by the formula for every `n`, and by `raid5_map` for
every array whose number of disks is an `int`, as long as no sum wraps. -/
theorem parity_balanced (n start : Nat) (hn : 1 ≤ n) :
    (∀ d ≤ n, (stripesOf (fun stripe => (rotation n stripe : Int)) start
      (n * (n + 1)) d).card = n) ∧
    ∀ r : Raid, r.dataDisks = n → n + 1 < 2 ^ 31 →
      (∀ stripe, start ≤ stripe → stripe < start + n * (n + 1) →
        stripe + stripe % n < 2 ^ 64) →
      ∀ d : Nat, d ≤ n →
        (stripesOf (pDisk r) start (n * (n + 1)) d).card = n := by
  refine ⟨fun d hd => card_rotation hn hd start, ?_⟩
  intro r hdisks hint hwrap d hd
  have hsame : stripesOf (pDisk r) start (n * (n + 1)) d =
      stripesOf (fun stripe => (rotation n stripe : Int)) start (n * (n + 1))
        d := by
    apply Finset.filter_congr
    intro stripe hstripe
    obtain ⟨hlow, hhigh⟩ := Finset.mem_Ico.mp hstripe
    rw [pDisk_eq_rotation hdisks hint (hwrap stripe hlow hhigh)]
  rw [hsame]
  exact card_rotation hn hd start

/-- Three data disks, and the twelve stripes from stripe 1000 on. -/
theorem parity_balanced_four_disks :
    (stripesOf (pDisk ⟨3, 128, []⟩) 1000 12 2).card = 3 := by
  refine (parity_balanced 3 1000 (by decide)).2 ⟨3, 128, []⟩ rfl (by decide) ?_
    2 (by decide)
  intro stripe _ hhigh
  have hmod : stripe % 3 < 3 := Nat.mod_lt stripe (by decide)
  omega

end SoftRaid
end OsKernel
