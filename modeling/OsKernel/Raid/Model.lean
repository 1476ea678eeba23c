import OsKernel.Lib.MachineInt

/-!
# The software RAID `demos/raid/raid.c`

The address maps of RAID 0, RAID 10 and RAID 5, the parity of RAID 5 and the
rebuilding of a lost disk, and the two parities of RAID 6.

`disk_read` and `disk_write` are stubs in `raid.c`: a healthy disk only counts
the access.  To say what a rebuild computes, a disk here has contents, and
`diskRead` of a healthy disk fills the buffer with the sector it holds.
Contents are the only thing added; the faulty branch and the counter are as in
the source.  Printed messages are left out, and so are the members of `struct
raid` that no function here reads.
-/

namespace OsKernel
namespace SoftRaid

open Lib

/-- `MAX_DISKS`. -/
def maxDisks : Nat := 16

/-- `SECTOR_SIZE`. -/
def sectorSize : Nat := 512

/-- `struct mock_disk`, with the byte at each offset of each sector. -/
structure MockDisk where
  faulty : Bool
  readCount : Nat
  content : Nat → Nat → BitVec 8

/-- `struct raid`: the number of data disks, the chunk size in sectors and the
member disks; a missing disk is a null pointer. -/
structure Raid where
  dataDisks : Int
  chunkSectors : Nat
  disks : List (Option MockDisk)

/-! ## Address map -/

/-- What `raid0_map` and `raid10_map` store in their two output arguments. -/
structure Place where
  disk : Int
  sector : Nat
  deriving DecidableEq, Repr

/-- `raid0_map`. -/
def raid0Map (r : Raid) (sector : Nat) : Place :=
  let stripe := sector / r.chunkSectors
  { disk := wrap32 (stripe % toU64 r.dataDisks : Nat)
    sector := toU64 (stripe / toU64 r.dataDisks * r.chunkSectors +
      sector % r.chunkSectors : Nat) }

/-- `raid10_map`. -/
def raid10Map (r : Raid) (sector : Nat) : Place :=
  let stripe := sector / r.chunkSectors
  let pairs := toU64 (r.dataDisks.tdiv 2)
  let mirrorPair := wrap32 (stripe % pairs : Nat)
  let chunkInStripe := wrap32 (sector % r.chunkSectors : Nat)
  { disk := wrap32 (mirrorPair * 2)
    sector := toU64
      ((stripe / pairs * r.chunkSectors : Nat) + chunkInStripe) }

/-- What `raid5_map` stores in its three output arguments. -/
structure Location where
  disk : Int
  sector : Nat
  isParity : Bool
  deriving DecidableEq, Repr

/-- The rotation formula
`(stripe + stripe % data_disks) % (data_disks + 1)`, in 64 bits and then
stored in an `int`. -/
def pDisk (r : Raid) (stripe : Nat) : Int :=
  wrap32 (toU64 (stripe + stripe % toU64 r.dataDisks : Nat) %
    toU64 (wrap32 (r.dataDisks + 1)) : Nat)

/-- `raid5_map`. -/
def raid5Map (r : Raid) (sector : Nat) : Location :=
  let stripe := sector / r.chunkSectors
  let dataInStripe := wrap32 (sector % r.chunkSectors : Nat)
  let outSector := toU64
    ((stripe / toU64 (wrap32 (r.dataDisks + 1)) * r.chunkSectors : Nat) +
      dataInStripe)
  if pDisk r stripe = r.dataDisks then
    { disk := r.dataDisks, sector := outSector, isParity := true }
  else
    { disk := pDisk r stripe, sector := outSector, isParity := false }

/-! ## Parity and rebuild -/

/-- `raid5_calc_parity`: the parity of `stripe_len` columns over the blocks. -/
def raid5CalcParity (data : List (List (BitVec 8))) (stripeLen : Nat) :
    List (BitVec 8) :=
  (List.range stripeLen).map fun i =>
    data.foldl (fun p block => p ^^^ block.getD i 0) 0

/-- `raid6_calc_double_parity`: the arrays `p` and `q`, the latter with block
`j` weighted by `n - j` in the integers and cut to a byte. -/
def raid6CalcDoubleParity (data : List (List (BitVec 8))) (stripeLen : Nat) :
    List (BitVec 8) × List (BitVec 8) :=
  let n := data.length
  let columns := (List.range stripeLen).map fun i =>
    data.zipIdx.foldl
      (fun (pp, qq) (block, j) =>
        (pp ^^^ block.getD i 0,
          qq ^^^ BitVec.ofNat 8 ((block.getD i 0).toNat * (n - j))))
      (0, 0)
  (columns.map Prod.fst, columns.map Prod.snd)

/-- `disk_read`: the disk afterwards and the first `len` bytes of the buffer. -/
def diskRead (d : MockDisk) (sector len : Nat) :
    MockDisk × List (BitVec 8) :=
  if d.faulty then (d, List.replicate len 0)
  else
    ({ d with readCount := d.readCount + 1 },
      (List.range len).map (d.content sector))

/-- The first loop of `raid5_rebuild_stripe`, over the remaining disks from
index `i` on: reads every healthy disk but the failed one.  Returns the disks
and the buffers, in the order in which they were filled. -/
def collectBuffers (failedDisk : Int) (sector len : Nat) :
    Nat → Nat → List (Option MockDisk) →
      List (Option MockDisk) × List (List (BitVec 8))
  | 0, _, disks => (disks, [])
  | remaining + 1, i, disks =>
      if (i : Int) = failedDisk then
        collectBuffers failedDisk sector len remaining (i + 1) disks
      else
        match disks.getD i none with
        | none => collectBuffers failedDisk sector len remaining (i + 1) disks
        | some d =>
            if d.faulty then
              collectBuffers failedDisk sector len remaining (i + 1) disks
            else
              let (d', buffer) := diskRead d sector len
              let (disks', buffers) := collectBuffers failedDisk sector len
                remaining (i + 1) (disks.set i (some d'))
              (disks', buffer :: buffers)

/-- The loop `result[j] ^= buffers[i][j]` over the given buffers, from a zeroed
`result`. -/
def xorBuffers (len : Nat) (buffers : List (List (BitVec 8))) :
    List (BitVec 8) :=
  buffers.foldl (fun result buffer => List.zipWith (· ^^^ ·) result buffer)
    (List.replicate len 0)

/-- `raid5_rebuild_stripe`: the array afterwards and the `len` bytes written
to `rebuilt_data`, if any.  The last of the collected buffers is not used. -/
def raid5RebuildStripe (r : Raid) (failedDisk : Int) (stripeSector len : Nat) :
    Raid × Option (List (BitVec 8)) :=
  let (disks, buffers) := collectBuffers failedDisk stripeSector len
    (wrap32 (r.dataDisks + 1)).toNat 0 r.disks
  let availableDisks := buffers.length
  ({ r with disks := disks },
    if (availableDisks : Int) ≥ r.dataDisks then
      some (xorBuffers len (buffers.take (availableDisks - 1)))
    else none)

end SoftRaid
end OsKernel
