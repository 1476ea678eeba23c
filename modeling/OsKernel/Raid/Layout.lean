import OsKernel.Lib.Striping
import OsKernel.Raid.Model

/-!
# The layout of RAID 0 and RAID 10

Both maps are striping in chunks, over the disks or over the first disks of the
mirror pairs.  As long as the logical size fits in 64 bits and a chunk has at
most `2^31` sectors, none of the conversions to `int` and none of the 64-bit
operations changes a value, and the layout is one to one (`striping_bijective`).
-/

namespace OsKernel
namespace SoftRaid

open Lib

/-- The map lays out the logical sectors below `size` one to one over the
places, and keeps the sectors of a chunk of `chunk` together and in order. -/
structure LaysOut (map : Nat → Place) (chunk size : Nat) (places : Set Place) :
    Prop where
  bijOn : Set.BijOn map (Set.Iio size) places
  consecutive : ∀ x, x < size → x % chunk + 1 < chunk →
    map (x + 1) = ⟨(map x).disk, (map x).sector + 1⟩

/-- Column `i` is on disk `disk i`. -/
def placeOf (disk : Nat → Int) (place : Nat × Nat) : Place :=
  ⟨disk place.1, place.2⟩

/-- The places on the disks of `n` columns, `size` sectors on each. -/
def columnPlaces (disk : Nat → Int) (n size : Nat) : Set Place :=
  {place | (∃ i < n, place.disk = disk i) ∧ place.sector < size}

theorem bijOn_placeOf {disk : Nat → Int} (hinj : Function.Injective disk)
    (n size : Nat) :
    Set.BijOn (placeOf disk) (Set.Iio n ×ˢ Set.Iio size)
      (columnPlaces disk n size) := by
  refine ⟨?_, ?_, ?_⟩
  · rintro ⟨i, sector⟩ ⟨hi, hsector⟩
    exact ⟨⟨i, hi, rfl⟩, hsector⟩
  · rintro ⟨i, sector⟩ - ⟨i', sector'⟩ - heq
    simp only [placeOf, Place.mk.injEq] at heq
    rw [hinj heq.1, heq.2]
  · rintro ⟨d, sector⟩ ⟨⟨i, hi, hd⟩, hsector⟩
    exact ⟨(i, sector), ⟨hi, hsector⟩, congrArg (Place.mk · sector) hd.symm⟩

/-- A map that stripes its sectors lays them out. -/
theorem laysOut_of_stripe {map : Nat → Place} {disk : Nat → Int}
    (hinj : Function.Injective disk) {chunk n k : Nat} (hchunk : 0 < chunk)
    (hn : 0 < n)
    (hmap : ∀ x < k * n * chunk, map x = placeOf disk (stripe chunk n x)) :
    LaysOut map chunk (k * n * chunk) (columnPlaces disk n (k * chunk)) where
  bijOn := by
    have hstripe := (bijOn_placeOf hinj n (k * chunk)).comp
      (bijOn_stripe hchunk hn k)
    exact hstripe.congr fun x hx => (hmap x hx).symm
  consecutive x hx hsame := by
    -- the next sector is in the same chunk, so it is below the size too
    have hnext : x + 1 < k * n * chunk := by
      have hlt := block_lt ((Nat.div_lt_iff_lt_mul hchunk).mpr hx) hsame
      rwa [← Nat.add_assoc, Nat.div_add_mod'] at hlt
    rw [hmap x hx, hmap (x + 1) hnext, stripe_succ hsame]
    rfl

section Maps

variable {r : Raid} {n k : Nat}

/-- What a stripe of a sector below the size stays below. -/
theorem stripe_lt {chunk x : Nat} (hchunk : 0 < chunk) (hn : 0 < n)
    (hsize : k * n * chunk ≤ 2 ^ 64) (hx : x < k * n * chunk) :
    (stripe chunk n x).1 < n ∧ (stripe chunk n x).2 < 2 ^ 64 := by
  obtain ⟨hcolumn, haddress⟩ := (bijOn_stripe hchunk hn k).mapsTo hx
  have hrows : k * chunk ≤ k * n * chunk :=
    Nat.mul_le_mul_right chunk (Nat.le_mul_of_pos_right k hn)
  have haddress : (stripe chunk n x).2 < k * chunk := haddress
  exact ⟨hcolumn, by omega⟩

theorem raid0Map_eq (hdisks : r.dataDisks = n) (hfits : n < 2 ^ 31)
    (hn : 0 < n) (hchunk : 0 < r.chunkSectors)
    (hsize : k * n * r.chunkSectors ≤ 2 ^ 64) {x : Nat}
    (hx : x < k * n * r.chunkSectors) :
    raid0Map r x = placeOf (fun i => (i : Int)) (stripe r.chunkSectors n x) := by
  obtain ⟨hcolumn, haddress⟩ := stripe_lt hchunk hn hsize hx
  simp only [stripe] at hcolumn haddress
  rw [raid0Map, hdisks, toU64_natCast (by omega)]
  simp only [placeOf, stripe]
  rw [wrap32_natCast (by omega), toU64_natCast haddress]

theorem raid10Map_eq (hdisks : r.dataDisks = 2 * n) (hfits : 2 * n < 2 ^ 31)
    (hn : 0 < n) (hchunk : 0 < r.chunkSectors)
    (hlimit : r.chunkSectors ≤ 2 ^ 31)
    (hsize : k * n * r.chunkSectors ≤ 2 ^ 64) {x : Nat}
    (hx : x < k * n * r.chunkSectors) :
    raid10Map r x =
      placeOf (fun i => 2 * (i : Int)) (stripe r.chunkSectors n x) := by
  obtain ⟨hcolumn, haddress⟩ := stripe_lt hchunk hn hsize hx
  simp only [stripe] at hcolumn haddress
  have hpairs : toU64 (r.dataDisks.tdiv 2) = n := by
    rw [hdisks, Int.mul_tdiv_cancel_left _ (by decide)]
    exact toU64_natCast (by omega)
  have hoffset : x % r.chunkSectors < 2 ^ 31 := by
    have hlt := Nat.mod_lt x hchunk
    omega
  have hpair : wrap32 (((x / r.chunkSectors % n : Nat) : Int) * 2) =
      2 * ((x / r.chunkSectors % n : Nat) : Int) := by
    rw [Int.mul_comm]
    exact wrap32_of_fitsInt ⟨by omega, by omega⟩
  rw [raid10Map, hpairs, wrap32_natCast (by omega), wrap32_natCast hoffset]
  simp only [placeOf, stripe]
  rw [hpair, ← Nat.cast_add, toU64_natCast haddress]

end Maps

/-- For every number of disks, every chunk size up to `2^31` and every number
of rows `k` whose logical size fits in 64 bits, `raid0_map` and `raid10_map` lay
the logical sectors out one to one, the first over all disks and the second
over the first disks of the mirror pairs. -/
theorem striping_bijective {r : Raid} (hfits : FitsInt r.dataDisks)
    (hchunk : 1 ≤ r.chunkSectors) (hlimit : r.chunkSectors ≤ 2 ^ 31)
    (k : Nat) :
    (∀ n : Nat, r.dataDisks = n → 1 ≤ n →
      k * n * r.chunkSectors ≤ 2 ^ 64 →
      LaysOut (raid0Map r) r.chunkSectors (k * n * r.chunkSectors)
        {place | (∃ i < n, place.disk = (i : Int)) ∧
          place.sector < k * r.chunkSectors}) ∧
    ∀ m : Nat, r.dataDisks = 2 * m → 1 ≤ m →
      k * m * r.chunkSectors ≤ 2 ^ 64 →
      LaysOut (raid10Map r) r.chunkSectors (k * m * r.chunkSectors)
        {place | (∃ i < m, place.disk = 2 * (i : Int)) ∧
          place.sector < k * r.chunkSectors} := by
  have hmax := hfits.2
  constructor
  · intro n hdisks hn hsize
    refine laysOut_of_stripe Nat.cast_injective hchunk hn ?_
    intro x hx
    exact raid0Map_eq hdisks (by omega) hn hchunk hsize hx
  · intro m hdisks hm hsize
    have hinj : Function.Injective fun i : Nat => 2 * (i : Int) := by
      intro i j hij
      have hij : 2 * (i : Int) = 2 * (j : Int) := hij
      omega
    refine laysOut_of_stripe hinj hchunk hm ?_
    intro x hx
    exact raid10Map_eq hdisks (by omega) hm hchunk hlimit hsize hx

/-- Four disks with chunks of 128 sectors: ten rows over all of them and over
the two mirror pairs. -/
theorem striping_bijective_four_disks :
    LaysOut (raid0Map ⟨4, 128, []⟩) 128 5120
        {place | (∃ i < 4, place.disk = ((i : Nat) : Int)) ∧
          place.sector < 1280} ∧
      LaysOut (raid10Map ⟨4, 128, []⟩) 128 2560
        {place | (∃ i < 2, place.disk = 2 * ((i : Nat) : Int)) ∧
          place.sector < 1280} := by
  have hstriping := striping_bijective (r := ⟨4, 128, []⟩)
    ⟨by decide, by decide⟩ (by decide) (by decide) 10
  exact ⟨hstriping.1 4 rfl (by decide) (by decide),
    hstriping.2 2 rfl (by decide) (by decide)⟩

end SoftRaid
end OsKernel
