import OsKernel.Vfs.Ext4

/-!
# File contents of `demos/vfs/ext4_ops.c`

`ext4_read` and `ext4_write` are called with a signed offset, an unsigned count
and an inode whose size is an `unsigned long`.  On a 64-bit machine every sum
and comparison of them is one of unsigned 64-bit numbers, and a result that is
stored in the offset or returned is converted back to a signed one.

`inode->i_block`, which `ext4_read` tests, is not a member of the `struct inode`
of `vfs.h`; its first entry is a field here.  The data block is taken as the
bytes at `data`, by their offset from it, and the reads of it are recorded as
the offset and the length given to `memcpy`.
-/

namespace OsKernel
namespace Vfs

/-- The members of `struct inode` that reading and writing use. -/
structure FileInode where
  iSize : UInt64
  iBlock0 : UInt32
  deriving DecidableEq, Repr

/-- What a call of `ext4_read` leaves: the buffer, the number of bytes stored in
it, the offset and the length `memcpy` reads from, `*pos` and the result. -/
structure ReadResult where
  buf : Nat → UInt8
  stored : UInt64
  source : Option (Int × UInt64)
  pos : Int64
  ret : Int64

/-- The count `ext4_read` uses below the end of the file. -/
def clampCount (inode : FileInode) (count : UInt64) (pos : Int64) : UInt64 :=
  if pos.toUInt64 + count > inode.iSize then inode.iSize - pos.toUInt64
  else count

/-- The byte a read stores for an offset: one of the first block, or zero when
there is none. -/
def fileByte (inode : FileInode) (data : Int → UInt8) (offset : Int) : UInt8 :=
  if inode.iBlock0 ≠ 0 then data offset else 0

/-- `ext4_read`. -/
def ext4Read (inode : FileInode) (data : Int → UInt8) (buf : Nat → UInt8)
    (count : UInt64) (pos : Int64) : ReadResult :=
  if pos.toUInt64 ≥ inode.iSize then
    { buf := buf, stored := 0, source := none, pos := pos, ret := 0 }
  else
    let count := clampCount inode count pos
    { buf := fun i =>
        if i < count.toNat then fileByte inode data (pos.toInt + i) else buf i
      stored := count
      source := if inode.iBlock0 ≠ 0 then some (pos.toInt, count) else none
      pos := (pos.toUInt64 + count).toInt64
      ret := count.toInt64 }

/-- `ext4_write`: the inode, `*pos` and the result. -/
def ext4Write (inode : FileInode) (count : UInt64) (pos : Int64) :
    FileInode × Int64 × Int64 :=
  (if pos.toUInt64 + count > inode.iSize then
      { inode with iSize := pos.toUInt64 + count }
    else inode,
    (pos.toUInt64 + count).toInt64, count.toInt64)

/-- The inode after a sequence of `ext4_write` calls with the given counts and
offsets. -/
def afterWrites (inode : FileInode) (calls : List (UInt64 × Int64)) :
    FileInode :=
  calls.foldl (fun inode call => (ext4Write inode call.1 call.2).1) inode

/-- The number of bytes of the file that a read of `count` bytes at `pos` can
give. -/
def available (inode : FileInode) (count : UInt64) (pos : Int64) : Nat :=
  min count.toNat (inode.iSize.toNat - pos.toInt.toNat)

/-- The read gives what the file has from `pos` on, up to `count` bytes, and
reads nothing else. -/
structure ReadsInside (inode : FileInode) (data : Int → UInt8)
    (buf : Nat → UInt8) (count : UInt64) (pos : Int64) : Prop where
  stored : (ext4Read inode data buf count pos).stored.toNat =
    available inode count pos
  bytes : ∀ i < available inode count pos,
    (ext4Read inode data buf count pos).buf i =
      fileByte inode data (pos.toInt + i)
  kept : ∀ i, available inode count pos ≤ i →
    (ext4Read inode data buf count pos).buf i = buf i
  inside : ∀ start length,
    (ext4Read inode data buf count pos).source = some (start, length) →
    ∀ o, start ≤ o → o < start + length.toNat →
      pos.toInt ≤ o ∧ o < pos.toInt + available inode count pos ∧
      0 ≤ o ∧ o < inode.iSize.toNat
  moved : (ext4Read inode data buf count pos).pos.toInt =
    pos.toInt + available inode count pos
  result : (ext4Read inode data buf count pos).ret.toInt =
    available inode count pos

/-! ## Signed and unsigned offsets -/

theorem toInt_eq_bmod (x : Int64) :
    x.toInt = (x.toUInt64.toNat : Int).bmod (2 ^ 64) := by
  show x.toBitVec.toInt = _
  exact BitVec.toInt_eq_toNat_bmod _

/-- An offset that is not negative is the same number unsigned. -/
theorem toNat_toUInt64 {pos : Int64} (hpos : 0 ≤ pos.toInt) :
    pos.toUInt64.toNat = pos.toInt.toNat := by
  have hlt := pos.toUInt64.toNat_lt
  rw [toInt_eq_bmod] at hpos ⊢
  unfold Int.bmod at hpos ⊢
  norm_num at hpos hlt ⊢
  omega

/-- An unsigned number keeps its value as a signed one exactly below `2 ^ 63`. -/
theorem toInt_toInt64_eq_iff {x : UInt64} :
    x.toInt64.toInt = x.toNat ↔ x.toNat < 2 ^ 63 := by
  have hbits : x.toInt64.toInt = (x.toNat : Int).bmod (2 ^ 64) :=
    toInt_eq_bmod x.toInt64
  have hlt := x.toNat_lt
  rw [hbits]
  unfold Int.bmod
  norm_num at hlt ⊢
  omega

/-! ## What a read does -/

section
variable {inode : FileInode} {data : Int → UInt8} {buf : Nat → UInt8}
  {count : UInt64} {pos : Int64}

/-- Where the sum is not cut off, the count becomes what the file can give. -/
theorem toNat_clampCount (hpos : 0 ≤ pos.toInt)
    (hbelow : pos.toInt.toNat < inode.iSize.toNat)
    (hsum : pos.toInt.toNat + count.toNat < 2 ^ 64) :
    (clampCount inode count pos).toNat = available inode count pos := by
  have hunsigned := toNat_toUInt64 hpos
  have hadd : (pos.toUInt64 + count).toNat = pos.toInt.toNat + count.toNat := by
    rw [UInt64.toNat_add, hunsigned, Nat.mod_eq_of_lt hsum]
  have hle : pos.toUInt64 ≤ inode.iSize := by
    rw [UInt64.le_iff_toNat_le, hunsigned]
    omega
  unfold clampCount available
  by_cases hpast : pos.toUInt64 + count > inode.iSize
  · rw [if_pos hpast, UInt64.toNat_sub_of_le _ _ hle, hunsigned]
    have hpast' := UInt64.lt_iff_toNat_lt.mp hpast
    omega
  · rw [if_neg hpast]
    have hpast' := mt UInt64.lt_iff_toNat_lt.mpr hpast
    omega

/-- Where the sum is cut off it comes out below `pos`, so the count is left as
it is. -/
theorem clampCount_of_overflow (hpos : 0 ≤ pos.toInt)
    (hbelow : pos.toInt.toNat < inode.iSize.toNat)
    (hsum : 2 ^ 64 ≤ pos.toInt.toNat + count.toNat) :
    clampCount inode count pos = count := by
  have hcount := count.toNat_lt
  have hlt := pos.toInt_lt
  have hadd : (pos.toUInt64 + count).toNat =
      pos.toInt.toNat + count.toNat - 2 ^ 64 := by
    rw [UInt64.toNat_add, toNat_toUInt64 hpos]
    omega
  refine if_neg fun hpast => ?_
  have hpast' := UInt64.lt_iff_toNat_lt.mp hpast
  omega

/-- At or behind the end of the file the read does nothing. -/
theorem readsInside_of_end (hpos : 0 ≤ pos.toInt)
    (hend : inode.iSize.toNat ≤ pos.toInt.toNat) :
    ReadsInside inode data buf count pos := by
  have hnone : available inode count pos = 0 := by
    unfold available
    omega
  have hread : ext4Read inode data buf count pos =
      { buf := buf, stored := 0, source := none, pos := pos, ret := 0 } := by
    refine if_pos ?_
    show inode.iSize ≤ pos.toUInt64
    rw [UInt64.le_iff_toNat_le, toNat_toUInt64 hpos]
    exact hend
  constructor
  · rw [hread, hnone]
    rfl
  · intro i hi
    rw [hnone] at hi
    exact absurd hi (Nat.not_lt_zero i)
  · intro i _
    rw [hread]
  · intro start length hsource
    rw [hread] at hsource
    cases hsource
  · rw [hread, hnone]
    simp
  · rw [hread, hnone]
    rfl

/-- Below the end of the file the read uses the clamped count throughout. -/
theorem ext4Read_of_below (data : Int → UInt8) (buf : Nat → UInt8)
    (count : UInt64) (hpos : 0 ≤ pos.toInt)
    (hbelow : pos.toInt.toNat < inode.iSize.toNat) :
    ext4Read inode data buf count pos =
      { buf := fun i =>
          if i < (clampCount inode count pos).toNat then
            fileByte inode data (pos.toInt + i)
          else buf i
        stored := clampCount inode count pos
        source := if inode.iBlock0 ≠ 0 then
          some (pos.toInt, clampCount inode count pos) else none
        pos := (pos.toUInt64 + clampCount inode count pos).toInt64
        ret := (clampCount inode count pos).toInt64 } := by
  refine if_neg ?_
  show ¬ inode.iSize ≤ pos.toUInt64
  rw [UInt64.le_iff_toNat_le, toNat_toUInt64 hpos]
  omega

theorem add_available_le (count : UInt64)
    (hbelow : pos.toInt.toNat < inode.iSize.toNat) :
    pos.toInt.toNat + available inode count pos ≤ inode.iSize.toNat := by
  unfold available
  omega

/-- With the right count, the new offset is right as long as it is not too large
for its type. -/
theorem toInt_newPos_eq_iff (hpos : 0 ≤ pos.toInt)
    (hbelow : pos.toInt.toNat < inode.iSize.toNat)
    (hclamp : (clampCount inode count pos).toNat = available inode count pos) :
    (pos.toUInt64 + clampCount inode count pos).toInt64.toInt =
        pos.toInt + available inode count pos ↔
      pos.toInt.toNat + available inode count pos < 2 ^ 63 := by
  have hsize := inode.iSize.toNat_lt
  have hroom := add_available_le count hbelow
  have hmoved : (pos.toUInt64 + clampCount inode count pos).toNat =
      pos.toInt.toNat + available inode count pos := by
    rw [UInt64.toNat_add, toNat_toUInt64 hpos, hclamp]
    omega
  have hiff := toInt_toInt64_eq_iff
    (x := pos.toUInt64 + clampCount inode count pos)
  rw [hmoved, Nat.cast_add, Int.toNat_of_nonneg hpos] at hiff
  exact hiff

/-- Below the end of the file, the read is right exactly when the count is and
the new offset is not too large for its type. -/
theorem readsInside_iff_of_below (hpos : 0 ≤ pos.toInt)
    (hbelow : pos.toInt.toNat < inode.iSize.toNat) :
    ReadsInside inode data buf count pos ↔
      (clampCount inode count pos).toNat = available inode count pos ∧
      pos.toInt.toNat + available inode count pos < 2 ^ 63 := by
  have hread := ext4Read_of_below data buf count hpos hbelow
  have hroom := add_available_le count hbelow
  constructor
  · intro h
    have hclamp : (clampCount inode count pos).toNat =
        available inode count pos := by
      have hstored := h.stored
      rw [hread] at hstored
      exact hstored
    have hmoved := h.moved
    rw [hread] at hmoved
    exact ⟨hclamp, (toInt_newPos_eq_iff hpos hbelow hclamp).mp hmoved⟩
  · rintro ⟨hclamp, hlt⟩
    constructor
    · rw [hread]
      exact hclamp
    · intro i hi
      rw [hread]
      exact if_pos (hclamp ▸ hi)
    · intro i hi
      rw [hread]
      exact if_neg (by rw [hclamp]; omega)
    · intro start length hsource o hlow hhigh
      rw [hread] at hsource
      obtain ⟨-, hpair⟩ := Option.ite_none_right_eq_some.mp hsource
      cases hpair
      rw [hclamp] at hhigh
      omega
    · rw [hread]
      exact (toInt_newPos_eq_iff hpos hbelow hclamp).mpr hlt
    · rw [hread]
      show (clampCount inode count pos).toInt64.toInt = _
      rw [toInt_toInt64_eq_iff.mpr (by rw [hclamp]; omega), hclamp]

end

/-- After any writes, a read gives exactly the bytes of the file from `pos` on
when `pos` is not below the end of the file, or when the sum of the offset and
the count is below `2 ^ 64` and the end of the read below `2 ^ 63`.  Otherwise
the count is not clamped, or the new offset turns negative. -/
theorem readsInside_iff (inode : FileInode) (calls : List (UInt64 × Int64))
    (data : Int → UInt8) (buf : Nat → UInt8) (count : UInt64) {pos : Int64}
    (hpos : 0 ≤ pos.toInt) :
    ReadsInside (afterWrites inode calls) data buf count pos ↔
      (afterWrites inode calls).iSize.toNat ≤ pos.toInt.toNat ∨
      (pos.toInt.toNat + count.toNat < 2 ^ 64 ∧
        min (pos.toInt.toNat + count.toNat)
          (afterWrites inode calls).iSize.toNat < 2 ^ 63) := by
  generalize afterWrites inode calls = inode
  by_cases hend : inode.iSize.toNat ≤ pos.toInt.toNat
  · exact ⟨fun _ => .inl hend, fun _ => readsInside_of_end hpos hend⟩
  have hbelow := Nat.lt_of_not_le hend
  have hread_end : pos.toInt.toNat + available inode count pos =
      min (pos.toInt.toNat + count.toNat) inode.iSize.toNat := by
    unfold available
    omega
  rw [readsInside_iff_of_below hpos hbelow, hread_end, or_iff_right hend]
  refine and_congr_left fun _ => ?_
  constructor
  · intro hclamp
    by_contra hsum
    rw [clampCount_of_overflow hpos hbelow (Nat.le_of_not_lt hsum)] at hclamp
    have hsize := inode.iSize.toNat_lt
    unfold available at hclamp
    omega
  · exact toNat_clampCount hpos hbelow

/-- A file of ten bytes after one write, read from its first byte on with a
count of four. -/
theorem readsInside_iff_small :
    0 ≤ (1 : Int64).toInt ∧
    ReadsInside (afterWrites ⟨0, 3⟩ [(10, 0)]) (fun _ => 7) (fun _ => 0) 4 1 :=
  ⟨by decide, (readsInside_iff ⟨0, 3⟩ [(10, 0)] (fun _ => 7) (fun _ => 0) 4
    (by decide)).mpr (.inr (by decide))⟩

/-- After a write of ten bytes at the start of an empty file, a read at offset
one with the largest count stores that many bytes: the sum comes out as zero and
the count is not clamped. -/
theorem readsInside_fails :
    ¬ ReadsInside (afterWrites ⟨0, 3⟩ [(10, 0)]) (fun _ => 7) (fun _ => 0)
      0xffffffffffffffff 1 := by
  intro h
  exact absurd h.stored (by decide)

end Vfs
end OsKernel
