import OsKernel.Lib.ActionSystem
import OsKernel.Lib.Bitmap
import OsKernel.Lib.MachineInt

/-!
# The volume manager `demos/lvm/lvm.c`

Physical volumes are divided into physical extents (PEs) of
`PE_SIZE_SECTORS` sectors, a volume group pools the PEs of its physical
volumes, and a logical volume is a table of logical extents (LEs), each mapped
to one PE.

The functions follow `lvm.c`.  A C `int` is an `Int` wrapped where an
operation can leave the range.  Names are not modelled (they are only printed),
nor are `lv.pv_count` and `pv_used`, which nothing reads.  A function that
returns `-1` or `NULL` on failure returns `none`; the messages it prints then
have no other effect.

`calloc` and `realloc` succeed for every size that is an `int` number of
elements.  A sum that wraps is a size near `2 ^ 64`, and they return `NULL`: then
a bitmap has no words (`bitmapWords`) and a table no entries (`lvExtend`).  The
program crashes when it uses them.  A call that does so has no next state
(`perform`).

`Vg.history` is a ghost field: the extents returned by the successful
`vg_alloc_pe` calls, oldest first.  Only `vgAllocPe` writes it and no function
reads it.
-/

namespace OsKernel
namespace Lvm

open Lib

/-- `SECTOR_SIZE`. -/
def sectorSize : Nat := 512

/-- `PE_SIZE_SECTORS`: one PE is 1 MB. -/
def peSizeSectors : Nat := 1024 * 1024 / sectorSize

/-- `MAX_PVS`. -/
def maxPvs : Nat := 16

/-- `struct pv`. -/
structure Pv where
  size : Nat
  peCount : Int
  peBitmap : List (BitVec 64)
  freePe : Int
  deriving DecidableEq, Repr

/-- The words `calloc((bits + 63) / 64, sizeof(unsigned long))` allocates.  The
sum and the quotient are `int`s, and the quotient is converted to `size_t`.  From
`2 ^ 31 - 63` bits on it is negative and the number of bytes is not a `size_t`:
`calloc` returns `NULL`, which is a bitmap without words. -/
def bitmapWords (bits : Int) : Nat :=
  let members := toU64 ((wrap32 (bits + 63)).tdiv 64)
  if members * 8 < 2 ^ 64 then members else 0

/-- `pv_create`. -/
def pvCreate (sizeSectors : Nat) : Pv :=
  let peCount := wrap32 (sizeSectors / peSizeSectors : Nat)
  { size := sizeSectors
    peCount := peCount
    peBitmap := List.replicate (bitmapWords peCount) 0
    freePe := peCount }

/-- There is a word for every PE.  These are the words that the loops of
`pv_alloc` and `pv_free` access. -/
def Pv.Mapped (p : Pv) : Prop := p.peCount ≤ 64 * p.peBitmap.length

instance (p : Pv) : Decidable p.Mapped :=
  inferInstanceAs (Decidable (p.peCount ≤ 64 * p.peBitmap.length))

/-- The search loop of `pv_alloc` over the remaining indices, at index `i`;
returns the final `found` and `start`. -/
def pvAllocScan (bitmap : List (BitVec 64)) (count : Int) :
    Nat → Nat → Int → Int → Int × Int
  | 0, _, found, start => (found, start)
  | remaining + 1, i, found, start =>
      if Bitmap.test bitmap i = false then
        let start := if found = 0 then (i : Int) else start
        let found := found + 1
        if found = count then (found, start)
        else pvAllocScan bitmap count remaining (i + 1) found start
      else
        pvAllocScan bitmap count remaining (i + 1) 0 (-1)

/-- `pv_alloc` of a volume with a bitmap: the changed volume and `*out_start`. -/
def pvAlloc (p : Pv) (count : Int) : Option (Pv × Int) :=
  let (found, start) := pvAllocScan p.peBitmap count p.peCount.toNat 0 0 (-1)
  if found < count then none
  else
    some ({ p with
      peBitmap := Bitmap.setRange p.peBitmap start.toNat count.toNat
      freePe := wrap32 (p.freePe - count) }, start)

/-- `pv_free`. -/
def pvFree (p : Pv) (start count : Int) : Pv :=
  { p with
    peBitmap := Bitmap.clearRange p.peBitmap start.toNat count.toNat
    freePe := wrap32 (p.freePe + count) }

/-- The PEs `start, ..., start + count - 1` of the PV with index `pv`. -/
structure Extent where
  pv : Nat
  start : Int
  count : Int
  deriving DecidableEq, Repr

/-- `struct vg`; `pv_count` is the length of `pvs`. -/
structure Vg where
  pvs : List Pv
  totalPe : Int
  freePe : Int
  history : List Extent
  deriving DecidableEq, Repr

/-- `vg_create`. -/
def vgCreate : Vg :=
  { pvs := [], totalPe := 0, freePe := 0, history := [] }

/-- `vg_add_pv`. -/
def vgAddPv (g : Vg) (p : Pv) : Option Vg :=
  if g.pvs.length ≥ maxPvs then none
  else
    some { g with
      pvs := g.pvs ++ [p]
      totalPe := wrap32 (g.totalPe + p.peCount)
      freePe := wrap32 (g.freePe + p.freePe) }

/-- The loop of `vg_alloc_pe`: the first PV that has `count` free PEs by its
counter and in which `pv_alloc` finds a run. -/
def vgAllocPvs (count : Int) : List Pv → Option (List Pv × Nat × Int)
  | [] => none
  | p :: rest =>
      match (if p.freePe ≥ count then pvAlloc p count else none) with
      | some (changed, start) => some (changed :: rest, 0, start)
      | none =>
          (vgAllocPvs count rest).map fun (pvs, index, start) =>
            (p :: pvs, index + 1, start)

/-- `vg_alloc_pe`: the changed group, `*out_pv_idx` and `*out_pe_start`. -/
def vgAllocPe (g : Vg) (count : Int) : Option (Vg × Nat × Int) :=
  (vgAllocPvs count g.pvs).map fun (pvs, index, start) =>
    ({ g with
        pvs := pvs
        freePe := wrap32 (g.freePe - count)
        history := g.history ++ [⟨index, start, count⟩] }, index, start)

/-- Every volume that `vg_alloc_pe` calls `pv_alloc` for has its bitmap.  The
search reads the word of the first PE at once, so that the call crashes
otherwise. -/
def vgAllocSafe (count : Int) : List Pv → Bool
  | [] => true
  | p :: rest =>
      if p.freePe ≥ count then
        decide p.Mapped && ((pvAlloc p count).isSome || vgAllocSafe count rest)
      else vgAllocSafe count rest

/-- `struct le_map`. -/
structure LeMap where
  pvIndex : Nat
  peStart : Int
  deriving DecidableEq, Repr, Inhabited

/-- `struct lv`.  `origin` is the handle of the volume a snapshot was made of. -/
structure Lv where
  leCount : Int
  leMap : List LeMap
  origin : Option Nat
  cowBitmap : List (BitVec 64)
  cowPeStart : Int
  cowPeCount : Int
  deriving DecidableEq, Repr

/-- The allocation loop of `lv_create` and `lv_extend`: up to the given number
of calls `vg_alloc_pe(g, 1, ...)`, ended by the first one that fails.  Returns
the outputs of the successful calls in order. -/
def allocLes : Nat → Vg → Vg × List LeMap
  | 0, g => (g, [])
  | remaining + 1, g =>
      match vgAllocPe g 1 with
      | none => (g, [])
      | some (g', index, start) =>
          let (last, les) := allocLes remaining g'
          (last, ⟨index, start⟩ :: les)

/-- No `vg_alloc_pe` call of the allocation loop crashes. -/
def allocLesSafe : Nat → Vg → Bool
  | 0, _ => true
  | remaining + 1, g =>
      vgAllocSafe 1 g.pvs &&
        match vgAllocPe g 1 with
        | none => true
        | some (g', _, _) => allocLesSafe remaining g'

/-- `lv_create`.  The LEs the group had no room for keep the zeros of
`calloc`, and `le_count` is the requested number all the same.  The third
component is the number of LEs printed by the shortage message, if any. -/
def lvCreate (g : Vg) (leCount : Int) : Vg × Lv × Option Nat :=
  let (g', les) := allocLes leCount.toNat g
  (g',
    { leCount := leCount
      leMap := les ++ List.replicate (leCount.toNat - les.length) ⟨0, 0⟩
      origin := none
      cowBitmap := []
      cowPeStart := 0
      cowPeCount := 0 },
    if les.length < leCount.toNat then some les.length else none)

/-- `lv_map_sector`: `*out_pv_idx` and the physical sector.  `pe_start *
PE_SIZE_SECTORS` is an `int` product; adding the `sector_t` offset widens it.
`none` stands for an access outside `le_map`. -/
def lvMapSector (l : Lv) (lvSector : Nat) : Option (Nat × Nat) :=
  let leIdx := wrap32 (lvSector / peSizeSectors : Nat)
  let leIdx := if leIdx ≥ l.leCount then wrap32 (l.leCount - 1) else leIdx
  if leIdx < 0 then none
  else
    (l.leMap[leIdx.toNat]?).map fun le =>
      (le.pvIndex,
        toU64 (wrap32 (le.peStart * peSizeSectors) +
          (lvSector % peSizeSectors : Nat)))

/-- The first `count` entries of a table after `realloc`.  Entries the table did
not have are not initialised; they are shown as zeros. -/
def reallocKept (leMap : List LeMap) (count : Int) : List LeMap :=
  leMap.take count.toNat ++
    List.replicate (count.toNat - leMap.length) ⟨0, 0⟩

/-- `lv_extend`: the changed volume and group, and whether it returned `0`;
`none` if an entry outside the table is stored to.

The number of entries `realloc` is asked for is an `int` sum.  If it is negative,
the size in bytes is near `2 ^ 64` and `le_map` becomes `NULL`.  On failure the
PEs found so far stay taken; the uninitialised tail of the table is left out. -/
def lvExtend (l : Lv) (g : Vg) (additionalLe : Int) : Option (Lv × Vg × Bool) :=
  let entries := wrap32 (l.leCount + additionalLe)
  let (g', les) := allocLes additionalLe.toNat g
  if les ≠ [] ∧ (entries < 0 ∨ l.leCount < 0) then none
  else
    let kept := if additionalLe < 0 then entries else l.leCount
    let leMap := if entries < 0 then [] else reallocKept l.leMap kept ++ les
    if les.length < additionalLe.toNat then
      some ({ l with leMap := leMap }, g', false)
    else some ({ l with leMap := leMap, leCount := entries }, g', true)

/-- The snapshot `lv_create_snapshot` returns for a COW area that starts at PE
`start`.  It shares the table of its origin. -/
def snapshotOf (handle : Nat) (origin : Lv) (start cowPeCount : Int) : Lv :=
  { leCount := origin.leCount
    leMap := origin.leMap
    origin := some handle
    cowBitmap := List.replicate (bitmapWords origin.leCount) 0
    cowPeStart := start
    cowPeCount := cowPeCount }

/-- `lv_create_snapshot`.  Both output arguments of `vg_alloc_pe` are the same
variable, so only the start PE survives. -/
def lvCreateSnapshot (g : Vg) (handle : Nat) (origin : Lv)
    (cowPeCount : Int) : Option (Vg × Lv) :=
  (vgAllocPe g cowPeCount).map fun (g', _, start) =>
    (g', snapshotOf handle origin start cowPeCount)

/-! ## Calls -/

/-- One call.  `addPv` is `pv_create` of a fresh volume followed by
`vg_add_pv`; a handle names a logical volume returned by an earlier call. -/
inductive Call
  | addPv (sizeSectors : Nat)
  | create (leCount : Int)
  | extend (handle : Nat) (additionalLe : Int)
  | createSnapshot (handle : Nat) (cowPeCount : Int)
  deriving DecidableEq, Repr

/-- What a call leaves in the hands of its caller.  With a snapshot comes the
extent that `vg_alloc_pe` reserved for it. -/
inductive Outcome
  | noVolume
  | created (l : Lv) (complete : Bool)
  | extended (handle : Nat) (l : Lv)
  | snapshot (snap : Lv) (area : Extent)
  deriving DecidableEq, Repr

/-- Perform one call on a group, where `lv` gives the logical volumes by their
handles.  A call that fails still has a result; one that crashes has none. -/
def perform (g : Vg) (lv : Nat → Option Lv) : Call → Option (Vg × Outcome)
  | .addPv sizeSectors =>
      some ((vgAddPv g (pvCreate sizeSectors)).getD g, .noVolume)
  | .create leCount =>
      if allocLesSafe leCount.toNat g then
        let (g', l, shortage) := lvCreate g leCount
        some (g', .created l shortage.isNone)
      else none
  | .extend handle additionalLe =>
      (lv handle).bind fun l =>
        if allocLesSafe additionalLe.toNat g then
          (lvExtend l g additionalLe).map fun (l', g', _) =>
            (g', .extended handle l')
        else none
  | .createSnapshot handle cowPeCount =>
      (lv handle).bind fun origin =>
        if vgAllocSafe cowPeCount g.pvs then
          match vgAllocPe g cowPeCount,
              lvCreateSnapshot g handle origin cowPeCount with
          | some (_, index, start), some (g', snap) =>
              some (g', .snapshot snap ⟨index, start, cowPeCount⟩)
          | _, _ => some (g, .noVolume)
        else none

/-! ## Runs of the volume manager -/

/-- A logical volume as its caller holds it.  `complete` is a ghost flag:
`lv_create` made the volume and printed no shortage message, and the volume has
not lost its table in an `lv_extend`. -/
structure Handle where
  lv : Lv
  complete : Bool
  deriving DecidableEq, Repr

/-- A volume group with the logical volumes returned so far; a handle is an
index into `lvs`. -/
structure State where
  vg : Vg
  lvs : List Handle
  deriving DecidableEq, Repr

/-- The volume with a handle. -/
def State.lv (s : State) (handle : Nat) : Option Lv :=
  (s.lvs[handle]?).map Handle.lv

/-- The state after a call that left the group `g`. -/
def State.after (s : State) (g : Vg) : Outcome → State
  | .noVolume => { s with vg := g }
  | .created l complete => { vg := g, lvs := s.lvs ++ [⟨l, complete⟩] }
  | .extended handle l =>
      { vg := g
        lvs := s.lvs.modify handle fun h =>
          ⟨l, h.complete && decide (l.leCount ≤ l.leMap.length)⟩ }
  | .snapshot snap _ => { vg := g, lvs := s.lvs ++ [⟨snap, false⟩] }

/-- Arguments within the C types, without negative LE counts and empty COW
areas. -/
def Call.InRange : Call → Prop
  | .addPv sizeSectors => sizeSectors < 2 ^ 64
  | .create leCount => 0 ≤ leCount ∧ leCount < 2 ^ 31
  | .extend _ additionalLe => 0 ≤ additionalLe ∧ additionalLe < 2 ^ 31
  | .createSnapshot _ cowPeCount => 1 ≤ cowPeCount ∧ cowPeCount < 2 ^ 31

instance : DecidablePred Call.InRange
  | .addPv sizeSectors => inferInstanceAs (Decidable (sizeSectors < 2 ^ 64))
  | .create leCount =>
      inferInstanceAs (Decidable (0 ≤ leCount ∧ leCount < 2 ^ 31))
  | .extend _ additionalLe =>
      inferInstanceAs (Decidable (0 ≤ additionalLe ∧ additionalLe < 2 ^ 31))
  | .createSnapshot _ cowPeCount =>
      inferInstanceAs (Decidable (1 ≤ cowPeCount ∧ cowPeCount < 2 ^ 31))

/-- Perform one call with arguments in range. -/
def step (s : State) (call : Call) : Option State :=
  if call.InRange then
    (perform s.vg s.lv call).map fun (g, outcome) => s.after g outcome
  else none

/-- Runs start from an empty group. -/
def system : ActionSystem State Call where
  init s := s = { vg := vgCreate, lvs := [] }
  step := step

end Lvm
end OsKernel
