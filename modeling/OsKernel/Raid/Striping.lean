import OsKernel.Raid.Model

/-!
# The RAID 5 address map

`raid5_map` sends a data sector to the disk that its own rotation formula
gives to the parity of the sector's stripe (`raid5Map_disk`).  The map is
therefore wrong for every number of disks and every chunk size.  From two data
disks on it also sends different sectors to one place
(`raid5Map_not_injective`).
-/

namespace OsKernel
namespace SoftRaid

open Lib

/-- A correct RAID 5 address map: different logical sectors go to different
places, every one of them is data on a member disk, and none lies on the disk
that holds the parity of its stripe. -/
structure Raid5MapCorrect (r : Raid) : Prop where
  apart : ∀ x y, x < 2 ^ 64 → y < 2 ^ 64 →
    (raid5Map r x).disk = (raid5Map r y).disk →
    (raid5Map r x).sector = (raid5Map r y).sector → x = y
  data : ∀ x, x < 2 ^ 64 → (raid5Map r x).isParity = false ∧
    0 ≤ (raid5Map r x).disk ∧ (raid5Map r x).disk ≤ r.dataDisks
  offParity : ∀ x, x < 2 ^ 64 →
    (raid5Map r x).disk ≠ pDisk r (x / r.chunkSectors)

/-- Both branches of `raid5_map` choose the parity disk of the stripe. -/
theorem raid5Map_disk (r : Raid) (sector : Nat) :
    (raid5Map r sector).disk = pDisk r (sector / r.chunkSectors) := by
  by_cases hparity : pDisk r (sector / r.chunkSectors) = r.dataDisks
  · simp [raid5Map, hparity]
  · simp [raid5Map, hparity]

theorem raid5Map_sector (r : Raid) (sector : Nat) :
    (raid5Map r sector).sector = toU64
      ((sector / r.chunkSectors / toU64 (wrap32 (r.dataDisks + 1)) *
        r.chunkSectors : Nat) + wrap32 (sector % r.chunkSectors : Nat)) := by
  by_cases hparity : pDisk r (sector / r.chunkSectors) = r.dataDisks
  · simp [raid5Map, hparity]
  · simp [raid5Map, hparity]

/-- No array has a correct map: already sector `0` lies on the parity disk of
stripe `0`, which is also row `0` of the member disks. -/
theorem raid5Map_never_correct (r : Raid) : ¬ Raid5MapCorrect r := by
  intro hcorrect
  exact hcorrect.offParity 0 (by norm_num) (raid5Map_disk r 0)

/-- The array of the demonstration, three data disks with chunks of 128
sectors: sectors `0` and `256` collide, and sector `384` is called parity. -/
theorem raid5Map_demo_not_correct :
    raid5Map ⟨3, 128, []⟩ 0 = ⟨0, 0, false⟩ ∧
      raid5Map ⟨3, 128, []⟩ 256 = ⟨0, 0, false⟩ ∧
      raid5Map ⟨3, 128, []⟩ 384 = ⟨3, 0, true⟩ ∧
      ¬ Raid5MapCorrect ⟨3, 128, []⟩ := by
  refine ⟨by decide, by decide, by decide, ?_⟩
  intro hcorrect
  have hsame : (0 : Nat) = 256 :=
    hcorrect.apart 0 256 (by norm_num) (by norm_num) (by decide) (by decide)
  contradiction

/-! ## Collisions -/

theorem pDisk_eq {r : Raid} {n stripe : Nat} (hn : r.dataDisks = n)
    (hfits : n + 1 < 2 ^ 31) (hstripe : stripe + stripe % n < 2 ^ 64) :
    pDisk r stripe = ((stripe + stripe % n) % (n + 1) : Nat) := by
  have hsucc : wrap32 (n + 1) = ((n + 1 : Nat) : Int) :=
    wrap32_natCast hfits
  have hlt : (stripe + stripe % n) % (n + 1) < n + 1 :=
    Nat.mod_lt _ (Nat.succ_pos n)
  unfold pDisk
  rw [hn, toU64_natCast (show n < 2 ^ 64 by omega), hsucc,
    toU64_natCast (show n + 1 < 2 ^ 64 by omega), toU64_natCast hstripe]
  exact wrap32_natCast (hlt.trans hfits)

/-- Two stripes of the first row of the member disks whose parity is on the
same disk: stripes `0` and `(n + 1) / 2` for odd `n`, stripes `n / 2` and `n`
for even `n`. -/
theorem exists_same_parity_disk {n : Nat} (hn : 2 ≤ n) :
    ∃ a b, a < b ∧ b ≤ n ∧
      (a + a % n) % (n + 1) = (b + b % n) % (n + 1) := by
  rcases Nat.even_or_odd' n with ⟨m, rfl | rfl⟩
  · refine ⟨m, 2 * m, by omega, le_rfl, ?_⟩
    rw [Nat.mod_eq_of_lt (show m < 2 * m by omega), Nat.mod_self]
    congr 1
    omega
  · refine ⟨0, m + 1, by omega, by omega, ?_⟩
    rw [Nat.zero_mod, Nat.mod_eq_of_lt (show m + 1 < 2 * m + 1 by omega),
      show m + 1 + (m + 1) = 2 * m + 1 + 1 by omega, Nat.mod_self,
      Nat.add_zero, Nat.zero_mod]

/-- With two or more data disks and a first row that is addressable, two
logical sectors share one place. -/
theorem raid5Map_not_injective {r : Raid} {n : Nat} (hn : r.dataDisks = n)
    (htwo : 2 ≤ n) (hfits : n + 1 < 2 ^ 31) (hchunk : 0 < r.chunkSectors)
    (hrow : n * r.chunkSectors < 2 ^ 63) :
    ∃ x y, x < y ∧ y < 2 ^ 64 ∧
      (raid5Map r x).disk = (raid5Map r y).disk ∧
      (raid5Map r x).sector = (raid5Map r y).sector := by
  obtain ⟨a, b, hab, hb, hsame⟩ := exists_same_parity_disk htwo
  have hmul : b * r.chunkSectors ≤ n * r.chunkSectors :=
    Nat.mul_le_mul_right _ hb
  have hn64 : n < 2 ^ 63 := by omega
  have ha64 : a + a % n < 2 ^ 64 := by
    have := Nat.mod_le a n
    omega
  have hb64 : b + b % n < 2 ^ 64 := by
    have := Nat.mod_le b n
    omega
  have hadisk := pDisk_eq hn hfits ha64
  have hbdisk := pDisk_eq hn hfits hb64
  refine ⟨a * r.chunkSectors, b * r.chunkSectors,
    Nat.mul_lt_mul_of_pos_right hab hchunk, by omega, ?_, ?_⟩
  · rw [raid5Map_disk, raid5Map_disk, Nat.mul_div_cancel _ hchunk,
      Nat.mul_div_cancel _ hchunk, hadisk, hbdisk, hsame]
  · -- Both stripes are in row zero and both sectors start their chunk.
    have hdisks : toU64 (wrap32 (r.dataDisks + 1)) = n + 1 := by
      rw [hn, ← Nat.cast_succ, wrap32_natCast hfits]
      exact toU64_natCast (by omega)
    rw [raid5Map_sector, raid5Map_sector, Nat.mul_div_cancel _ hchunk,
      Nat.mul_div_cancel _ hchunk, hdisks,
      Nat.div_eq_of_lt (show a < n + 1 by omega),
      Nat.div_eq_of_lt (show b < n + 1 by omega), Nat.mul_mod_left,
      Nat.mul_mod_left]

end SoftRaid
end OsKernel
