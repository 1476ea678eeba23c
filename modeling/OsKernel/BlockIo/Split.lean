import OsKernel.BlockIo.Model

/-!
# What `bio_split` leaves behind

`bio_split` gives the new bio the sectors and the size of the back part, but
all vectors of the original, from the first one on; and it advances the
original, which keeps the sectors of the front part, past the front part's
data.  The size of the new bio is therefore never the number of bytes of its
vectors (`bio_split_never_partitions`), and the original has the data of the
back part at the sectors of the front one (`bioSplit_original`).
-/

namespace OsKernel
namespace BlockIo

variable {Page Dev : Type}

/-- The memory bytes of a vector, as page and offset. -/
def BioVec.bytes (bv : BioVec Page) : List (Page × UInt32) :=
  (List.range bv.bvLen.toNat).map fun j =>
    (bv.bvPage, bv.bvOffset + UInt32.ofNat j)

/-- The bytes of `count` vectors from index `idx` on. -/
def bytesFrom (vec : Nat → BioVec Page) (idx count : Nat) :
    List (Page × UInt32) :=
  (List.range' idx count).flatMap fun i => (vec i).bytes

/-- The bytes still to be transferred, in order. -/
def Bio.data (bio : Bio Page Dev) : List (Page × UInt32) :=
  bytesFrom bio.biIoVec bio.biIdx (bio.biVcnt - bio.biIdx)

/-- A bio as its user fills it: allocated, given a sector, an operation and a
device, then pages added one by one without the size wrapping. -/
inductive Built : Bio Page Dev → Prop
  | alloc (nrVecs : Nat) (memory : Nat → BioVec Page) (sector : UInt64)
      (op : UInt16) (bdev : Option Dev) :
      Built { (bioAlloc nrVecs memory : Bio Page Dev) with
        biSector := sector, biOp := op, biBdev := bdev }
  | add {bio bio' : Bio Page Dev} {page : Page} {len offset : UInt32}
      (hbuilt : Built bio) (hadd : bioAddPage bio page len offset = some bio')
      (hsize : bio.biSize.toNat + len.toNat < 2 ^ 32) : Built bio'

/-- The two bios share the original's sectors and data: `front` has the first
`sectors` sectors and their bytes, `back` the rest, and each one's `bi_size` is
the number of bytes of its vectors. -/
structure SplitsAt (bio : Bio Page Dev) (sectors : Int)
    (front back : Bio Page Dev) : Prop where
  front_sector : front.biSector = bio.biSector
  front_data : front.data = bio.data.take (sectors * 512).toNat
  front_size : front.biSize.toNat = front.data.length
  back_sector : back.biSector = bio.biSector + UInt64.ofInt sectors
  back_data : back.data = bio.data.drop (sectors * 512).toNat
  back_size : back.biSize.toNat = back.data.length

@[simp] theorem BioVec.length_bytes (bv : BioVec Page) :
    bv.bytes.length = bv.bvLen.toNat := by
  simp [BioVec.bytes]

theorem bytesFrom_concat (vec : Nat → BioVec Page) (idx count : Nat) :
    bytesFrom vec idx (count + 1) =
      bytesFrom vec idx count ++ (vec (idx + count)).bytes := by
  rw [bytesFrom, List.range'_1_concat, List.flatMap_append,
    List.flatMap_singleton]
  rfl

theorem bytesFrom_succ (vec : Nat → BioVec Page) (idx count : Nat) :
    bytesFrom vec idx (count + 1) =
      (vec idx).bytes ++ bytesFrom vec (idx + 1) count := by
  rw [bytesFrom, List.range'_succ, List.flatMap_cons]
  rfl

/-- Only the vectors in use count. -/
theorem bytesFrom_congr {vec vec' : Nat → BioVec Page} {idx count : Nat}
    (hsame : ∀ i, idx ≤ i → i < idx + count → vec' i = vec i) :
    bytesFrom vec' idx count = bytesFrom vec idx count := by
  apply List.flatMap_congr
  intro i hi
  obtain ⟨hle, hlt⟩ := List.mem_range'_1.mp hi
  rw [hsame i hle hlt]

/-- `bio_add_page` puts the bytes of the new vector at the end. -/
theorem bioAddPage_some {bio bio' : Bio Page Dev}
    (hidx : bio.biIdx ≤ bio.biVcnt) {page : Page} {len offset : UInt32}
    (hadd : bioAddPage bio page len offset = some bio') :
    bio'.biIdx = bio.biIdx ∧ bio'.biVcnt = bio.biVcnt + 1 ∧
      bio'.biSize = bio.biSize + len ∧
      bio'.data = bio.data ++ BioVec.bytes ⟨page, len, offset⟩ := by
  unfold bioAddPage at hadd
  split at hadd
  · cases hadd
  · obtain rfl := Option.some.inj hadd
    refine ⟨rfl, rfl, rfl, ?_⟩
    have hcount : bio.biVcnt + 1 - bio.biIdx = bio.biVcnt - bio.biIdx + 1 := by
      omega
    have hold : bytesFrom (Function.update bio.biIoVec bio.biVcnt
          ⟨page, len, offset⟩) bio.biIdx (bio.biVcnt - bio.biIdx) =
        bytesFrom bio.biIoVec bio.biIdx (bio.biVcnt - bio.biIdx) :=
      bytesFrom_congr fun i hle hlt => Function.update_of_ne (by omega) _ _
    show bytesFrom (Function.update bio.biIoVec bio.biVcnt
      ⟨page, len, offset⟩) bio.biIdx (bio.biVcnt + 1 - bio.biIdx) = _
    rw [Bio.data, ← hold, hcount, bytesFrom_concat, Nat.add_sub_cancel' hidx,
      Function.update_self]

/-- Nothing of a bio as it was filled is done yet, and `bi_size` is its number
of bytes. -/
theorem Built.size_eq {bio : Bio Page Dev} (h : Built bio) :
    bio.biIdx = 0 ∧ bio.biSize.toNat = bio.data.length := by
  induction h with
  | alloc => simp [bioAlloc, Bio.data, bytesFrom]
  | add hbuilt hadd hsize ih =>
      obtain ⟨hidx, hlength⟩ := ih
      obtain ⟨hidx', -, hsize', hdata⟩ := bioAddPage_some (by omega) hadd
      refine ⟨hidx'.trans hidx, ?_⟩
      rw [hsize', hdata, List.length_append, BioVec.length_bytes,
        UInt32.toNat_add, Nat.mod_eq_of_lt hsize, hlength]

/-- `sectors << 9` as an unsigned number. -/
theorem toNat_splitBytes {sectors : Int} (hpos : 0 < sectors)
    (hlt : sectors * 512 < 2 ^ 32) :
    (UInt32.ofInt (sectors * 2 ^ 9)).toNat = (sectors * 512).toNat := by
  rw [UInt32.ofInt]
  simp
  omega

/-- When the allocation succeeds and the split point is inside the bio, there
are two bios. -/
theorem bioSplit_eq {bio : Bio Page Dev} {sectors : Int} (hpos : 0 < sectors)
    (hlt : sectors * 512 < bio.biSize.toNat) (memory : Nat → BioVec Page) :
    bioSplit bio sectors (some memory) =
      (bioAdvance bio (UInt32.ofInt (sectors * 2 ^ 9)),
        some { bioClone bio memory with
          biSector := bio.biSector + UInt64.ofInt sectors
          biSize := bio.biSize - UInt32.ofInt (sectors * 2 ^ 9) }) := by
  have hbound := bio.biSize.toNat_lt
  have hbytes := toNat_splitBytes hpos (by omega)
  have hinside : ¬ UInt32.ofInt (sectors * 2 ^ 9) ≥ bio.biSize := by
    rw [ge_iff_le, UInt32.le_iff_toNat_le, hbytes]
    omega
  rw [bioSplit, if_neg hinside]
  rfl

/-- The new bio has all vectors of the original. -/
theorem data_bioClone {bio : Bio Page Dev} (hidx : bio.biIdx = 0)
    (memory : Nat → BioVec Page) : (bioClone bio memory).data = bio.data := by
  rw [Bio.data.eq_def bio, hidx]
  show bytesFrom _ 0 (bio.biVcnt - 0) = _
  exact bytesFrom_congr fun i _ hlt => if_pos (by omega)

/-- Advancing a vector drops its first bytes. -/
theorem BioVec.bytes_advance (bv : BioVec Page) {count : UInt32}
    (hle : count ≤ bv.bvLen) :
    (bv.advance count).bytes = bv.bytes.drop count.toNat := by
  have hlen : (bv.bvLen - count).toNat = bv.bvLen.toNat - count.toNat :=
    UInt32.toNat_sub_of_le _ _ hle
  rw [BioVec.bytes, BioVec.bytes, ← List.map_drop, List.range_eq_range',
    List.range_eq_range', List.drop_range']
  simp only [BioVec.advance, hlen, Nat.zero_add]
  rw [List.range'_eq_map_range, List.range'_eq_map_range, List.map_map,
    List.map_map]
  refine List.map_congr_left fun j _ => ?_
  simp [UInt32.add_assoc]

/-- The loop of `bio_advance` stops at index `j`: it went over empty vectors
only, and stopped at the end or at a vector that is not empty. -/
structure Skipped (vec : Nat → BioVec Page) (remaining idx j : Nat) :
    Prop where
  ge : idx ≤ j
  le : j ≤ idx + remaining
  stops : j = idx + remaining ∨ (vec j).bvLen ≠ 0
  bytes_eq : bytesFrom vec j (idx + remaining - j) = bytesFrom vec idx remaining

theorem skipEmpty_skipped (vec : Nat → BioVec Page) (remaining idx : Nat) :
    Skipped vec remaining idx (skipEmpty vec remaining idx) := by
  induction remaining generalizing idx with
  | zero =>
      rw [skipEmpty]
      exact ⟨le_rfl, le_rfl, .inl rfl, by rw [Nat.add_zero, Nat.sub_self]⟩
  | succ remaining ih =>
      rw [skipEmpty]
      split
      next hempty =>
        obtain ⟨hge, hle, hstops, hbytes⟩ := ih (idx + 1)
        have hend : idx + 1 + remaining = idx + (remaining + 1) := by omega
        have hnone : (vec idx).bytes = [] := by simp [BioVec.bytes, hempty]
        rw [hend] at hle hstops hbytes
        refine ⟨Nat.le_of_succ_le hge, hle, hstops, ?_⟩
        rw [hbytes, bytesFrom_succ, hnone, List.nil_append]
      next hnonempty =>
        exact ⟨le_rfl, by omega, .inr hnonempty,
          by rw [Nat.add_sub_cancel_left]⟩

/-- The vectors after `bio_advance`. -/
def advancedVecs (bio : Bio Page Dev) (count : UInt32) : Nat → BioVec Page :=
  Function.update bio.biIoVec bio.biIdx
    ((bio.biIoVec bio.biIdx).advance count)

theorem bioAdvance_skipped (bio : Bio Page Dev) (count : UInt32) :
    Skipped (advancedVecs bio count) (bio.biVcnt - bio.biIdx) bio.biIdx
      (bioAdvance bio count).biIdx :=
  skipEmpty_skipped _ _ _

/-- `bio_advance` changes the current vector and passes over empty ones. -/
theorem data_bioAdvance_eq {bio : Bio Page Dev}
    (hidx : bio.biIdx < bio.biVcnt) (count : UInt32) :
    (bioAdvance bio count).data =
      ((bio.biIoVec bio.biIdx).advance count).bytes ++
        bytesFrom bio.biIoVec (bio.biIdx + 1) (bio.biVcnt - bio.biIdx - 1) := by
  have hskipped := (bioAdvance_skipped bio count).bytes_eq
  have hrest : bio.biVcnt - bio.biIdx = bio.biVcnt - bio.biIdx - 1 + 1 := by
    omega
  rw [Nat.add_sub_cancel' hidx.le] at hskipped
  refine hskipped.trans ?_
  rw [hrest, bytesFrom_succ, Nat.add_sub_cancel, advancedVecs,
    Function.update_self]
  congr 1
  exact bytesFrom_congr fun i hle _ => Function.update_of_ne (by omega) _ _

theorem data_eq_cons {bio : Bio Page Dev} (hidx : bio.biIdx < bio.biVcnt) :
    bio.data = (bio.biIoVec bio.biIdx).bytes ++
      bytesFrom bio.biIoVec (bio.biIdx + 1) (bio.biVcnt - bio.biIdx - 1) := by
  have hrest : bio.biVcnt - bio.biIdx = bio.biVcnt - bio.biIdx - 1 + 1 := by
    omega
  rw [Bio.data, hrest, bytesFrom_succ, Nat.add_sub_cancel]

/-- Inside the current vector `bio_advance` drops the first bytes of the
data. -/
theorem data_bioAdvance {bio : Bio Page Dev} (hidx : bio.biIdx < bio.biVcnt)
    {count : UInt32} (hle : count ≤ (bio.biIoVec bio.biIdx).bvLen) :
    (bioAdvance bio count).data = bio.data.drop count.toNat := by
  rw [data_bioAdvance_eq hidx, data_eq_cons hidx, BioVec.bytes_advance _ hle,
    List.drop_append_of_le_length]
  rw [BioVec.length_bytes]
  exact UInt32.le_iff_toNat_le.mp hle

/-- A split inside the first vector leaves the original at the front part's
sectors, with the back part's data. -/
theorem bioSplit_original {bio : Bio Page Dev} (hidx : bio.biIdx = 0)
    (hvcnt : 0 < bio.biVcnt) {sectors : Int} (hpos : 0 < sectors)
    (hlt : sectors * 512 < bio.biSize.toNat)
    (hfirst : sectors * 512 < (bio.biIoVec 0).bvLen.toNat)
    (memory : Nat → BioVec Page) :
    (bioSplit bio sectors (some memory)).1.biSector = bio.biSector ∧
      (bioSplit bio sectors (some memory)).1.data =
        bio.data.drop (sectors * 512).toNat := by
  have hbound := bio.biSize.toNat_lt
  have hbytes := toNat_splitBytes hpos (by omega)
  have hinside : UInt32.ofInt (sectors * 2 ^ 9) ≤
      (bio.biIoVec bio.biIdx).bvLen := by
    rw [UInt32.le_iff_toNat_le, hbytes, hidx]
    omega
  rw [bioSplit_eq hpos hlt memory]
  refine ⟨rfl, ?_⟩
  rw [← hbytes]
  exact data_bioAdvance (by omega) hinside

/-- Of the two bios that `bio_split` makes of a bio as it was filled, the new
one has a size that is not the number of bytes of its vectors: in neither order
do the two share the original. -/
theorem bio_split_never_partitions {bio : Bio Page Dev} (hbuilt : Built bio)
    {sectors : Int} (hpos : 0 < sectors)
    (hlt : sectors * 512 < bio.biSize.toNat) (memory : Nat → BioVec Page) :
    ∃ original newBio,
      bioSplit bio sectors (some memory) = (original, some newBio) ∧
      ¬ (SplitsAt bio sectors original newBio ∨
        SplitsAt bio sectors newBio original) := by
  obtain ⟨hidx, hsize⟩ := hbuilt.size_eq
  refine ⟨_, _, bioSplit_eq hpos hlt memory, ?_⟩
  have hbound := bio.biSize.toNat_lt
  have hbytes := toNat_splitBytes hpos (by omega)
  have hle : UInt32.ofInt (sectors * 2 ^ 9) ≤ bio.biSize := by
    rw [UInt32.le_iff_toNat_le, hbytes]
    omega
  have hnew : (bio.biSize - UInt32.ofInt (sectors * 2 ^ 9)).toNat ≠
      (bioClone bio memory).data.length := by
    rw [data_bioClone hidx, UInt32.toNat_sub_of_le _ _ hle, hbytes, ← hsize]
    omega
  rintro (hsplit | hsplit)
  · exact hnew hsplit.back_size
  · exact hnew hsplit.front_size

/-- A vector array nothing was written to yet. -/
def freshVecs : Nat → BioVec Unit := fun _ => ⟨(), 0, 0⟩

/-- A read of two sectors from sector 100 on, into one buffer. -/
def twoSectorRead : Bio Unit Unit :=
  { (bioAlloc 1 freshVecs : Bio Unit Unit) with
    biSector := 100, biVcnt := 1, biSize := 1024
    biIoVec := Function.update freshVecs 0 ⟨(), 1024, 0⟩ }

theorem built_twoSectorRead : Built twoSectorRead :=
  .add (.alloc 1 freshVecs 100 bioOpRead none) rfl (by decide)

theorem bio_split_never_partitions_two_sectors :
    ∃ original newBio,
      bioSplit twoSectorRead 1 (some freshVecs) = (original, some newBio) ∧
      ¬ (SplitsAt twoSectorRead 1 original newBio ∨
        SplitsAt twoSectorRead 1 newBio original) :=
  bio_split_never_partitions built_twoSectorRead (by decide) (by decide)
    freshVecs

/-- Split after the first of the two sectors, the new bio is 512 bytes long
and has the vector of both; the original would read the second half of the
buffer from the first sector. -/
theorem bio_split_copies_whole_vector :
    ∃ original newBio,
      bioSplit twoSectorRead 1 (some freshVecs) = (original, some newBio) ∧
      newBio.biSector = 101 ∧ newBio.biSize = 512 ∧
      newBio.data.length = 1024 ∧ newBio.biIoVec 0 = ⟨(), 1024, 0⟩ ∧
      original.biSector = 100 ∧ original.biIdx = 0 ∧
      original.biIoVec 0 = ⟨(), 512, 512⟩ := by
  refine ⟨_, _, rfl, rfl, rfl, ?_, rfl, rfl, rfl, rfl⟩
  simp only [Bio.data, bytesFrom, List.length_flatMap, BioVec.length_bytes]
  rfl

end BlockIo
end OsKernel
