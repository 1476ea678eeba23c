import Mathlib.Tactic

/-!
# Block I/O requests `demos/bio/bio.c`

A `bio` is a range of disk sectors and a list of memory vectors (its scatter
list), of which those from `bi_idx` on are still to be transferred.  `bi_io_vec`
is the memory behind the pointer: the function gives the vector at every index,
also behind the last one the bio uses, where the content is whatever the memory
holds.

`sector_t` is taken as a 64-bit unsigned type; its header is not in the
repository.  Left out are the fields no function here reads (`bi_phys_segments`,
`bi_flags`, `bi_next`, `bi_list`) and `bi_private` and `bi_end_io`, which
`bio_clone` copies and only the completion uses.  The pool that `bio_alloc`
takes the bio from is in `OsKernel.BlockIo.Pool`: here a call gets a new bio,
whose vectors have any content, or fails.
-/

namespace OsKernel
namespace BlockIo

/-- `struct bio_vec`. -/
structure BioVec (Page : Type) where
  bvPage : Page
  bvLen : UInt32
  bvOffset : UInt32
  deriving DecidableEq, Repr

/-- `struct bio`. -/
structure Bio (Page Dev : Type) where
  biSector : UInt64
  biIoVec : Nat → BioVec Page
  biVcnt : Nat
  biMaxVecs : Nat
  biSize : UInt32
  biIdx : Nat
  biOp : UInt16
  biBdev : Option Dev

variable {Page Dev : Type}

/-- `BIO_OP_READ`. -/
def bioOpRead : UInt16 := 0

/-- `bio_alloc(nr_vecs)` when it succeeds; `memory` is what `kmalloc`
returned.  `bi_max_vecs` is an `unsigned short`. -/
def bioAlloc (nrVecs : Nat) (memory : Nat → BioVec Page) : Bio Page Dev :=
  { biSector := 0
    biIoVec := memory
    biVcnt := 0
    biMaxVecs := nrVecs % 2 ^ 16
    biSize := 0
    biIdx := 0
    biOp := bioOpRead
    biBdev := none }

/-- `bio_add_page`; `none` for `-ENOMEM`. -/
def bioAddPage (bio : Bio Page Dev) (page : Page) (len offset : UInt32) :
    Option (Bio Page Dev) :=
  if bio.biVcnt ≥ bio.biMaxVecs then none
  else
    some { bio with
      biIoVec := Function.update bio.biIoVec bio.biVcnt ⟨page, len, offset⟩
      biVcnt := bio.biVcnt + 1
      biSize := bio.biSize + len }

/-- The loop of `bio_advance` over the remaining indices below `bi_vcnt`. -/
def skipEmpty (vec : Nat → BioVec Page) : Nat → Nat → Nat
  | 0, idx => idx
  | remaining + 1, idx =>
      if (vec idx).bvLen = 0 then skipEmpty vec remaining (idx + 1) else idx

/-- The first `bytes` bytes of a vector are done. -/
def BioVec.advance (bv : BioVec Page) (bytes : UInt32) : BioVec Page :=
  { bv with bvOffset := bv.bvOffset + bytes, bvLen := bv.bvLen - bytes }

/-- `bio_advance`. -/
def bioAdvance (bio : Bio Page Dev) (bytes : UInt32) : Bio Page Dev :=
  let vec := Function.update bio.biIoVec bio.biIdx
    ((bio.biIoVec bio.biIdx).advance bytes)
  { bio with
    biIoVec := vec
    biSize := bio.biSize - bytes
    biIdx := skipEmpty vec (bio.biVcnt - bio.biIdx) bio.biIdx }

/-- `bio_clone` when its `bio_alloc` succeeds. -/
def bioClone (bio : Bio Page Dev) (memory : Nat → BioVec Page) :
    Bio Page Dev :=
  { (bioAlloc bio.biMaxVecs memory : Bio Page Dev) with
    biSector := bio.biSector
    biOp := bio.biOp
    biBdev := bio.biBdev
    biIdx := 0
    biVcnt := bio.biVcnt
    biSize := bio.biSize
    biIoVec := fun i => if i < bio.biVcnt then bio.biIoVec i else memory i }

/-- `bio_split`: the bio afterwards and the new one, if there is one;
otherwise the bio itself is returned.  `memory` is what the allocation of the
clone gives, if it succeeds. -/
def bioSplit (bio : Bio Page Dev) (sectors : Int)
    (memory : Option (Nat → BioVec Page)) :
    Bio Page Dev × Option (Bio Page Dev) :=
  -- `sectors << 9`, an `int`, is converted to unsigned wherever it is used
  let bytes := UInt32.ofInt (sectors * 2 ^ 9)
  if bytes ≥ bio.biSize then (bio, none)
  else
    match memory with
    | none => (bio, none)
    | some memory =>
        let newBio := bioClone bio memory
        let newBio :=
          { newBio with
            biSector := newBio.biSector + UInt64.ofInt sectors
            biSize := newBio.biSize - bytes }
        (bioAdvance bio bytes, some newBio)

end BlockIo
end OsKernel
