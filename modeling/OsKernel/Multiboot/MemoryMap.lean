import OsKernel.Lib.Loops
import OsKernel.Multiboot.KernelMain

/-!
# The bytes read in the walk through the memory map

The loop of `kernel_main` trusts the boot loader.  It reads an entry whenever
the entry's first byte is below the end of the map, although the type stands 20
bytes behind it, and it steps by the entry's own `size` with 32-bit arithmetic,
so that the next entry may be anywhere, also the same one again.  Only available
entries count towards the limit of four.

When the end of the map does not fit into 32 bits, the sum the loop compares
with comes out below the start of the map and nothing is read.  Otherwise the
entries are at the sums of the sizes before them, and the walk is safe exactly if
the entries at these sums are whole entries of the map up to the fourth available
one or up to a sum that is behind the map.  A walk that ends makes at most four
turns for every byte of the map (`mmapSafe_iff`).
-/

namespace OsKernel
namespace Multiboot

open Lib

/-- The addresses of the bytes of a field of the entry at `mmap`. -/
def fieldBytes (mmap : BitVec 32) (offset width : Nat) : List (BitVec 32) :=
  (List.range width).map fun i => mmap + BitVec.ofNat 32 (offset + i)

/-- A 32-bit number in memory. -/
def le32 (mem : BitVec 32 → BitVec 8) (a : BitVec 32) : BitVec 32 :=
  mem (a + 3) ++ mem (a + 2) ++ mem (a + 1) ++ mem a

/-- A 64-bit number in memory. -/
def le64 (mem : BitVec 32 → BitVec 8) (a : BitVec 32) : BitVec 64 :=
  le32 mem (a + 4) ++ le32 mem a

/-- The entry whose bytes are in memory from `mmap` on.  The structure is
packed. -/
def entryAt (mem : BitVec 32 → BitVec 8) (mmap : BitVec 32) : MmapEntry :=
  { size := le32 mem mmap
    addr := le64 mem (mmap + 4)
    len := le64 mem (mmap + 12)
    type := le32 mem (mmap + 20) }

namespace MultibootInfo
variable (info : MultibootInfo)

/-- The value of `count` after the entry. -/
def nextCount (mmap : BitVec 32) (count : Nat) : Nat :=
  if (info.mmapAt mmap).type = mbMemAvailable then count + 1 else count

/-- The bytes read for the entry at `mmap`: its type, for the line of an
available entry `addr` and `len`, which it uses twice each, and its size. -/
def entryReads (mmap : BitVec 32) : List (BitVec 32) :=
  fieldBytes mmap 20 4 ++
    (if (info.mmapAt mmap).type = mbMemAvailable then
      fieldBytes mmap 4 8 ++ fieldBytes mmap 4 8 ++
        fieldBytes mmap 12 8 ++ fieldBytes mmap 12 8
    else []) ++
    fieldBytes mmap 0 4

/-- The bytes the loop over the memory map reads in `fuel` iterations. -/
def mmapReads : Nat → BitVec 32 → Nat → List (BitVec 32)
  | 0, _, _ => []
  | fuel + 1, mmap, count =>
      if info.walking mmap count then
        info.entryReads mmap ++
          mmapReads fuel (info.nextEntry mmap) (info.nextCount mmap count)
      else []

/-- The address behind the memory map. -/
def mmapEnd : Nat := info.mmapAddr.toNat + info.mmapLength.toNat

/-- A byte of the memory map. -/
def InMap (a : BitVec 32) : Prop :=
  info.mmapAddr.toNat ≤ a.toNat ∧ a.toNat < info.mmapEnd

/-- The loop ends, and reads only bytes of the memory map. -/
structure MmapSafe : Prop where
  ends : ∃ fuel, ∀ t, (mmapLoop info fuel info.mmapAddr 0 t).2 = true
  inside : ∀ fuel, ∀ a ∈ info.mmapReads fuel info.mmapAddr 0, info.InMap a

/-- The entry at `mmap` is in the map.  At the top of the address space, an
entry that is not available can also have its type at the start of the map,
the fields between being behind the end of the map but not read. -/
def Inside (mmap : BitVec 32) : Prop :=
  info.mmapAddr.toNat ≤ mmap.toNat ∧
    (mmap.toNat + 24 ≤ info.mmapEnd ∨
      ((info.mmapAt mmap).type ≠ mbMemAvailable ∧
        mmap.toNat + 4 ≤ info.mmapEnd ∧
        2 ^ 32 + info.mmapAddr.toNat ≤ mmap.toNat + 20))

/-- The distance of the `i`-th entry from the start of the map, which is the sum
of the sizes before, each with the four bytes of the size itself. -/
def offset : Nat → BitVec 32
  | 0 => 0
  | i + 1 => offset i + (info.mmapAt (info.mmapAddr + offset i)).size + 4

/-- The `i`-th entry. -/
def entry (i : Nat) : MmapEntry := info.mmapAt (info.mmapAddr + info.offset i)

/-- How many of the first `n` entries are available. -/
def available (n : Nat) : Nat :=
  (List.range n).countP fun i => (info.entry i).type = mbMemAvailable

/-- The `i`-th entry is a whole entry of the map; at the top of the address space
it may be one that is not available and has only its type at the start of the
map. -/
def Whole (i : Nat) : Prop :=
  (info.offset i).toNat + 24 ≤ info.mmapLength.toNat ∨
    ((info.entry i).type ≠ mbMemAvailable ∧
      (info.offset i).toNat + 4 ≤ info.mmapLength.toNat ∧
      2 ^ 32 ≤ (info.offset i).toNat + 20)

/-- The sizes lead through `n` whole entries, after which four available ones
were seen or the sum of the sizes is behind the map. -/
structure SizesFit (n : Nat) : Prop where
  whole : ∀ i < n, info.Whole i
  stops : 4 ≤ info.available n ∨
    (info.mmapLength.toNat ≤ (info.offset n).toNat ∧
      info.mmapAddr.toNat + (info.offset n).toNat < 2 ^ 32)

variable {info} {mmap : BitVec 32} {count : Nat}

/-! ## One entry -/

theorem walking_iff :
    info.walking mmap count = true ↔
      mmap.toNat < info.mmapEnd % 2 ^ 32 ∧ count < 4 := by
  unfold walking mmapEnd
  rw [Bool.and_eq_true, decide_eq_true_iff, decide_eq_true_iff,
    BitVec.lt_def, BitVec.toNat_add]

/-- The map of an entry that is visited at or above its start ends in the
address space. -/
theorem mmapEnd_lt (hwalking : info.walking mmap count = true)
    (hle : info.mmapAddr.toNat ≤ mmap.toNat) :
    mmap.toNat < info.mmapEnd ∧ info.mmapEnd < 2 ^ 32 := by
  have hlt := (walking_iff.mp hwalking).1
  have haddr := info.mmapAddr.isLt
  have hlength := info.mmapLength.isLt
  unfold mmapEnd at hlt ⊢
  omega

theorem mem_fieldBytes {offset width : Nat} {a : BitVec 32} :
    a ∈ fieldBytes mmap offset width ↔
      ∃ k, offset ≤ k ∧ k < offset + width ∧ a = mmap + BitVec.ofNat 32 k := by
  unfold fieldBytes
  rw [List.mem_map]
  constructor
  · rintro ⟨i, hi, rfl⟩
    have hlt := List.mem_range.mp hi
    exact ⟨offset + i, by omega, by omega, rfl⟩
  · rintro ⟨k, hlow, hhigh, rfl⟩
    refine ⟨k - offset, List.mem_range.mpr (by omega), ?_⟩
    rw [Nat.add_sub_cancel' hlow]

/-- The offsets of the bytes that are read for an entry. -/
theorem mem_entryReads {a : BitVec 32} :
    a ∈ info.entryReads mmap ↔
      ∃ k < 24, (k < 4 ∨ 20 ≤ k ∨
        (info.mmapAt mmap).type = mbMemAvailable) ∧
        a = mmap + BitVec.ofNat 32 k := by
  unfold entryReads
  by_cases htype : (info.mmapAt mmap).type = mbMemAvailable
  · rw [if_pos htype]
    simp only [List.mem_append, mem_fieldBytes]
    constructor
    · rintro ((⟨k, _, _, rfl⟩ | (((⟨k, _, _, rfl⟩ | ⟨k, _, _, rfl⟩) |
        ⟨k, _, _, rfl⟩) | ⟨k, _, _, rfl⟩)) | ⟨k, _, _, rfl⟩) <;>
        exact ⟨k, by omega, .inr (.inr htype), rfl⟩
    · rintro ⟨k, hk, -, rfl⟩
      -- the fields follow one another without a gap
      rcases Nat.lt_or_ge k 4 with hsize | hsize
      · exact .inr ⟨k, by omega, by omega, rfl⟩
      rcases Nat.lt_or_ge k 12 with haddr | haddr
      · exact .inl (.inr (.inl (.inl (.inl ⟨k, by omega, by omega, rfl⟩))))
      rcases Nat.lt_or_ge k 20 with hlen | hlen
      · exact .inl (.inr (.inr ⟨k, by omega, by omega, rfl⟩))
      · exact .inl (.inl ⟨k, by omega, by omega, rfl⟩)
  · rw [if_neg htype, List.append_nil, List.mem_append]
    simp only [mem_fieldBytes]
    constructor
    · rintro (⟨k, _, _, rfl⟩ | ⟨k, _, _, rfl⟩)
      · exact ⟨k, by omega, .inr (.inl (by omega)), rfl⟩
      · exact ⟨k, by omega, .inl (by omega), rfl⟩
    · rintro ⟨k, hk, hread | hread | hread, rfl⟩
      · exact .inr ⟨k, by omega, by omega, rfl⟩
      · exact .inl ⟨k, by omega, by omega, rfl⟩
      · exact absurd hread htype

/-- A byte of an entry, as a number. -/
theorem inMap_add_iff {k : Nat} :
    info.InMap (mmap + BitVec.ofNat 32 k) ↔
      info.mmapAddr.toNat ≤ (mmap.toNat + k) % 2 ^ 32 ∧
      (mmap.toNat + k) % 2 ^ 32 < info.mmapEnd := by
  have hvalue : (mmap + BitVec.ofNat 32 k).toNat =
      (mmap.toNat + k) % 2 ^ 32 := by
    rw [BitVec.toNat_add, BitVec.toNat_ofNat]
    omega
  unfold InMap
  rw [hvalue]

/-- The bytes read for an entry, by their offsets. -/
theorem entryReads_inMap_iff_offsets :
    (∀ a ∈ info.entryReads mmap, info.InMap a) ↔
      ∀ k < 24, (k < 4 ∨ 20 ≤ k ∨
        (info.mmapAt mmap).type = mbMemAvailable) →
        info.mmapAddr.toNat ≤ (mmap.toNat + k) % 2 ^ 32 ∧
        (mmap.toNat + k) % 2 ^ 32 < info.mmapEnd := by
  constructor
  · intro h k hk hused
    exact inMap_add_iff.mp (h _ (mem_entryReads.mpr ⟨k, hk, hused, rfl⟩))
  · intro h a ha
    obtain ⟨k, hk, hused, rfl⟩ := mem_entryReads.mp ha
    exact inMap_add_iff.mpr (h k hk hused)

/-- The bytes read for an entry are in the map exactly when the entry is. -/
theorem entryReads_inMap_iff (hwalking : info.walking mmap count = true) :
    (∀ a ∈ info.entryReads mmap, info.InMap a) ↔ info.Inside mmap := by
  have htop := mmap.isLt
  rw [entryReads_inMap_iff_offsets]
  constructor
  · intro h
    have hle : info.mmapAddr.toNat ≤ mmap.toNat := by
      have hfirst := (h 0 (by omega) (.inl (by omega))).1
      rwa [Nat.add_zero, Nat.mod_eq_of_lt htop] at hfirst
    obtain ⟨-, hend⟩ := mmapEnd_lt hwalking hle
    refine ⟨hle, ?_⟩
    by_cases hfits : mmap.toNat + 23 < 2 ^ 32
    · have hbyte := (h 23 (by omega) (.inr (.inl (by omega)))).2
      left
      omega
    · -- the last byte of the address space is behind the map, so it is not read
      have hskipped : ¬ (2 ^ 32 - 1 - mmap.toNat < 4 ∨
          20 ≤ 2 ^ 32 - 1 - mmap.toNat ∨
          (info.mmapAt mmap).type = mbMemAvailable) := by
        intro hused
        have hbelow := (h (2 ^ 32 - 1 - mmap.toNat) (by omega) hused).2
        omega
      rw [not_or, not_or] at hskipped
      have hsize := (h 3 (by omega) (.inl (by omega))).2
      have htype := (h 20 (by omega) (.inr (.inl (by omega)))).1
      right
      exact ⟨hskipped.2.2, by omega, by omega⟩
  · rintro ⟨hle, hroom⟩ k hk hused
    obtain ⟨hlt, hend⟩ := mmapEnd_lt hwalking hle
    rcases hroom with hroom | ⟨hother, hroom, hwrapped⟩
    · omega
    · have hused' : k < 4 ∨ 20 ≤ k := by
        rcases hused with hused | hused | hused
        · exact .inl hused
        · exact .inr hused
        · exact absurd hused hother
      omega

/-! ## The whole walk -/

/-- The loop goes on with an entry. -/
def Walking (info : MultibootInfo) (s : BitVec 32 × Nat) : Prop :=
  info.walking s.1 s.2 = true

/-- The address of the next entry and the value of `count` there. -/
def turn (info : MultibootInfo) (s : BitVec 32 × Nat) : BitVec 32 × Nat :=
  (info.nextEntry s.1, info.nextCount s.1 s.2)

theorem mmapWalk_ended_succ (fuel : Nat) :
    (mmapWalk info (fuel + 1) mmap count).2 =
      if info.walking mmap count then
        (mmapWalk info fuel (info.nextEntry mmap)
          (info.nextCount mmap count)).2
      else true := by
  rw [mmapWalk]
  by_cases hwalking : info.walking mmap count = true
  · rw [if_pos hwalking, if_pos hwalking]
    unfold nextCount
    by_cases htype : (info.mmapAt mmap).type = mbMemAvailable
    · simp only [if_pos htype]
    · simp only [if_neg htype]
  · rw [if_neg hwalking, if_neg hwalking]

theorem mmapWalk_ended_iff {fuel : Nat} :
    (mmapWalk info fuel mmap count).2 = true ↔
      ∃ n ≤ fuel, Turns info.Walking info.turn (mmap, count) n := by
  constructor
  · intro hended
    induction fuel generalizing mmap count with
    | zero =>
        rw [mmapWalk] at hended
        refine ⟨0, le_rfl, fun i hi => absurd hi i.not_lt_zero, ?_⟩
        simpa [Walking] using hended
    | succ fuel ih =>
        rw [mmapWalk_ended_succ] at hended
        by_cases hwalking : info.walking mmap count = true
        · -- one turn, and then those from the next entry on
          rw [if_pos hwalking] at hended
          obtain ⟨n, hn, hends⟩ := ih hended
          refine ⟨n + 1, Nat.succ_le_succ hn, fun i hi => ?_, hends.stops⟩
          cases i with
          | zero => exact hwalking
          | succ i => exact hends.goes i (Nat.lt_of_succ_lt_succ hi)
        · exact ⟨0, Nat.zero_le _, fun i hi => absurd hi i.not_lt_zero, hwalking⟩
  · rintro ⟨n, hn, hends⟩
    induction fuel generalizing mmap count n with
    | zero =>
        obtain rfl := Nat.le_zero.mp hn
        rw [mmapWalk]
        simpa [Walking] using hends.stops
    | succ fuel ih =>
        rw [mmapWalk_ended_succ]
        by_cases hwalking : info.walking mmap count = true
        · rw [if_pos hwalking]
          cases n with
          | zero => exact absurd hwalking hends.stops
          | succ n =>
              exact ih n (Nat.le_of_succ_le_succ hn)
                ⟨fun i hi => hends.goes (i + 1) (Nat.succ_lt_succ hi), hends.stops⟩
        · rw [if_neg hwalking]

/-- The bytes read are those of the entries that the loop turns to. -/
theorem mem_mmapReads {fuel : Nat} {a : BitVec 32} :
    a ∈ info.mmapReads fuel mmap count ↔
      ∃ i < fuel, (∀ j ≤ i, info.Walking (info.turn^[j] (mmap, count))) ∧
        a ∈ info.entryReads (info.turn^[i] (mmap, count)).1 := by
  induction fuel generalizing mmap count with
  | zero =>
      simp [mmapReads]
  | succ fuel ih =>
      rw [mmapReads]
      by_cases hwalking : info.walking mmap count = true
      · rw [if_pos hwalking, List.mem_append, ih]
        constructor
        · rintro (hread | ⟨i, hi, hgoes, hread⟩)
          · refine ⟨0, Nat.succ_pos _, fun j hj => ?_, hread⟩
            obtain rfl := Nat.le_zero.mp hj
            exact hwalking
          · refine ⟨i + 1, Nat.succ_lt_succ hi, fun j hj => ?_, hread⟩
            cases j with
            | zero => exact hwalking
            | succ j => exact hgoes j (Nat.le_of_succ_le_succ hj)
        · rintro ⟨i, hi, hgoes, hread⟩
          cases i with
          | zero => exact .inl hread
          | succ i =>
              exact .inr ⟨i, Nat.lt_of_succ_lt_succ hi,
                fun j hj => hgoes (j + 1) (Nat.succ_le_succ hj), hread⟩
      · rw [if_neg hwalking]
        constructor
        · intro hread
          exact absurd hread List.not_mem_nil
        · rintro ⟨i, -, hgoes, -⟩
          exact absurd (hgoes 0 (Nat.zero_le _)) hwalking

/-- The walk is safe if it ends and the entries it turns to are in the map. -/
theorem mmapSafe_iff_turns :
    info.MmapSafe ↔
      ∃ n, Turns info.Walking info.turn (info.mmapAddr, 0) n ∧
        ∀ i < n, info.Inside (info.turn^[i] (info.mmapAddr, 0)).1 := by
  constructor
  · rintro ⟨⟨fuel, hended⟩, hreads⟩
    have hwalk := hended (cleared [])
    rw [mmapLoop_eq] at hwalk
    obtain ⟨n, -, hends⟩ := mmapWalk_ended_iff.mp hwalk
    refine ⟨n, hends, fun i hi => ?_⟩
    refine (entryReads_inMap_iff (hends.goes i hi)).mp fun a ha => ?_
    refine hreads n a (mem_mmapReads.mpr ⟨i, hi, fun j hj => ?_, ha⟩)
    exact hends.goes j (Nat.lt_of_le_of_lt hj hi)
  · rintro ⟨n, hends, hinside⟩
    refine ⟨⟨n, fun t => ?_⟩, fun fuel a ha => ?_⟩
    · rw [mmapLoop_eq]
      exact mmapWalk_ended_iff.mpr ⟨n, le_rfl, hends⟩
    · obtain ⟨i, -, hgoes, hread⟩ := mem_mmapReads.mp ha
      have hi : i < n := by
        by_contra hle
        exact hends.stops (hgoes n (by omega))
      exact (entryReads_inMap_iff (hgoes i le_rfl)).mpr (hinside i hi) a hread

/-! ## The entries by their offsets -/

theorem available_succ (info : MultibootInfo) (i : Nat) :
    info.available (i + 1) =
      if (info.entry i).type = mbMemAvailable then info.available i + 1
      else info.available i := by
  rw [available, List.range_succ, List.countP_append, List.countP_singleton]
  by_cases htype : (info.entry i).type = mbMemAvailable
  · simp only [htype, decide_true, if_true]
    rfl
  · simp only [htype, decide_false, if_false, Bool.false_eq_true]
    rfl

/-- The loop turns to the entry behind the sizes so far. -/
theorem turn_iterate (info : MultibootInfo) (i : Nat) :
    info.turn^[i] (info.mmapAddr, 0) =
      (info.mmapAddr + info.offset i, info.available i) := by
  induction i with
  | zero => simp [offset, available]
  | succ i ih =>
      rw [Function.iterate_succ_apply', ih, turn]
      refine Prod.ext ?_ ?_
      · simp only [nextEntry, offset, BitVec.add_assoc]
      · exact (info.available_succ i).symm

section Offsets

variable (hend : info.mmapEnd < 2 ^ 32) (i : Nat)
include hend

/-- An entry of the map is a whole one at its offset. -/
theorem inside_iff_whole :
    info.Inside (info.mmapAddr + info.offset i) ↔ info.Whole i := by
  have hoffset := (info.offset i).isLt
  have haddr := info.mmapAddr.isLt
  unfold mmapEnd at hend
  simp only [Inside, Whole, entry, mmapEnd, BitVec.toNat_add]
  by_cases htype : (info.mmapAt (info.mmapAddr + info.offset i)).type =
      mbMemAvailable
  · simp only [htype, ne_eq, not_true, false_and, or_false]
    omega
  · simp only [htype, ne_eq, not_false_eq_true, true_and]
    omega

theorem not_walking_offset_iff :
    ¬ info.Walking (info.turn^[i] (info.mmapAddr, 0)) ↔
      4 ≤ info.available i ∨
        (info.mmapLength.toNat ≤ (info.offset i).toNat ∧
          info.mmapAddr.toNat + (info.offset i).toNat < 2 ^ 32) := by
  have hoffset := (info.offset i).isLt
  have haddr := info.mmapAddr.isLt
  unfold mmapEnd at hend
  rw [turn_iterate, Walking, walking_iff]
  simp only [mmapEnd, BitVec.toNat_add]
  omega

end Offsets

/-- A walk through entries of the map makes at most four turns for each byte of
it, since its states are all different. -/
theorem turns_le (hend : info.mmapEnd < 2 ^ 32) {n : Nat}
    (hends : Turns info.Walking info.turn (info.mmapAddr, 0) n)
    (hinside : ∀ i < n, info.Inside (info.turn^[i] (info.mmapAddr, 0)).1) :
    n ≤ 4 * info.mmapLength.toNat := by
  let states : Finset (BitVec 32 × Nat) :=
    (Finset.range info.mmapLength.toNat ×ˢ Finset.range 4).image
      fun s => (info.mmapAddr + BitVec.ofNat 32 s.1, s.2)
  have hcard : states.card ≤ 4 * info.mmapLength.toNat := by
    refine Finset.card_image_le.trans ?_
    rw [Finset.card_product, Finset.card_range, Finset.card_range, Nat.mul_comm]
  refine (hends.le_card fun i hi => ?_).trans hcard
  have hwalking := hends.goes i hi
  have hwhole := hinside i hi
  rw [turn_iterate] at hwalking hwhole ⊢
  rw [inside_iff_whole hend] at hwhole
  refine Finset.mem_image.mpr
    ⟨((info.offset i).toNat, info.available i), ?_, ?_⟩
  · rw [Finset.mem_product, Finset.mem_range, Finset.mem_range]
    refine ⟨?_, (walking_iff.mp hwalking).2⟩
    rcases hwhole with hroom | ⟨-, hroom, -⟩
    · exact Nat.lt_of_lt_of_le (by omega) hroom
    · exact Nat.lt_of_lt_of_le (by omega) hroom
  · simp

/-- Where the map does not end in the address space, the loop is not entered. -/
theorem turns_of_wrapped (hwrapped : 2 ^ 32 ≤ info.mmapEnd) :
    Turns info.Walking info.turn (info.mmapAddr, 0) 0 := by
  refine ⟨fun i hi => absurd hi i.not_lt_zero, fun hwalking => ?_⟩
  obtain ⟨-, hend⟩ := mmapEnd_lt hwalking le_rfl
  omega

end MultibootInfo

/-- The walk through the memory map ends and stays in the map exactly when the
end of the map is not an address, so that nothing is read, or the sizes lead
through whole entries of the map, at most four for each byte of it, until four
available ones were seen or the sum of the sizes is behind the map. -/
theorem mmapSafe_iff (info : MultibootInfo) :
    info.MmapSafe ↔
      2 ^ 32 ≤ info.mmapEnd ∨
        ∃ n ≤ 4 * info.mmapLength.toNat, info.SizesFit n := by
  rw [MultibootInfo.mmapSafe_iff_turns]
  constructor
  · rintro ⟨n, hends, hinside⟩
    rcases Nat.lt_or_ge info.mmapEnd (2 ^ 32) with hend | hwrapped
    · refine .inr ⟨n, info.turns_le hend hends hinside, fun i hi => ?_, ?_⟩
      · have hentry := hinside i hi
        rw [MultibootInfo.turn_iterate] at hentry
        exact (MultibootInfo.inside_iff_whole hend i).mp hentry
      · exact (MultibootInfo.not_walking_offset_iff hend n).mp hends.stops
    · exact .inl hwrapped
  · rintro (hwrapped | ⟨n, -, hfit⟩)
    · exact ⟨0, MultibootInfo.turns_of_wrapped hwrapped,
        fun i hi => absurd hi i.not_lt_zero⟩
    · rcases Nat.lt_or_ge info.mmapEnd (2 ^ 32) with hend | hwrapped
      · obtain ⟨m, hm, hends⟩ :=
          exists_turns ((MultibootInfo.not_walking_offset_iff hend n).mpr hfit.stops)
        refine ⟨m, hends, fun i hi => ?_⟩
        rw [MultibootInfo.turn_iterate]
        exact (MultibootInfo.inside_iff_whole hend i).mpr
          (hfit.whole i (Nat.lt_of_lt_of_le hi hm))
      · exact ⟨0, MultibootInfo.turns_of_wrapped hwrapped,
          fun i hi => absurd hi i.not_lt_zero⟩

/-- Boot information with a memory map at `0x10000`. -/
def mapAtPage (length : BitVec 32) (mem : BitVec 32 → BitVec 8) :
    MultibootInfo :=
  { flags := mbFlagMmap
    memLower := 0
    memUpper := 0
    cmdline := []
    modsCount := 0
    mmapLength := length
    mmapAddr := 0x10000
    bootLoaderName := []
    mmapAt := entryAt mem }

/-- A map of one available entry with `size` 20. -/
theorem mmapSafe_iff_oneEntry :
    (mapAtPage 24 fun a => if a = 0x10000 then 20 else
      if a = 0x10014 then 1 else 0).MmapSafe := by
  refine (mmapSafe_iff _).mpr (.inr ⟨1, by decide, fun i hi => ?_, ?_⟩)
  · obtain rfl := Nat.lt_one_iff.mp hi
    exact .inl (by decide)
  · exact .inr (by decide)

/-- An entry of a type that is not counted, whose `size` is `2 ^ 32 - 4`, is
visited for ever. -/
theorem mmapWalk_sameEntry (fuel : Nat) :
    (mmapWalk (mapAtPage 24 fun a => if a = 0x10000 then 0xFC else
      if a < 0x10004 then 0xFF else 0) fuel 0x10000 0).2 = false := by
  induction fuel with
  | zero => rfl
  | succ fuel ih =>
      rw [MultibootInfo.mmapWalk_ended_succ, if_pos (by decide)]
      exact ih

/-- A map whose only entry leads back to itself, and a map of four bytes, of
whose entry the type is read. -/
theorem mmapSafe_fails :
    ¬ (mapAtPage 24 fun a => if a = 0x10000 then 0xFC else
      if a < 0x10004 then 0xFF else 0).MmapSafe ∧
    ¬ (mapAtPage 4 fun _ => 0).MmapSafe := by
  constructor
  · rintro ⟨⟨fuel, hended⟩, -⟩
    have hwalk := hended (cleared [])
    rw [mmapLoop_eq] at hwalk
    rw [show (mapAtPage 24 _).mmapAddr = 0x10000 from rfl,
      mmapWalk_sameEntry] at hwalk
    exact Bool.noConfusion hwalk
  · intro h
    have hread := (h.inside 1 0x10014 (by decide)).2
    exact absurd hread (by decide)

end Multiboot
end OsKernel
