import OsKernel.BlockIo.Split

/-!
# Consuming the data of a bio

`bio_advance` takes all bytes from the current vector, also if the vector has
fewer: then the length of the vector wraps, and from there on the vectors
describe `2 ^ 32` bytes more than `bi_size` says.  `Advanced` follows a bio
through any calls and keeps in a flag whether that has happened, or whether
`bi_size` has wrapped while pages were added; the flag is never set again.

The exit test of the loop reads the vector it has moved to before it compares
the index, so a call that uses up the data reads the vector at `bi_vcnt`.
-/

namespace OsKernel
namespace BlockIo

variable {Page Dev : Type}

/-- The sum of the remaining `bv_len` values. -/
def Bio.remaining (bio : Bio Page Dev) : Nat :=
  ((List.range' bio.biIdx (bio.biVcnt - bio.biIdx)).map fun i =>
    (bio.biIoVec i).bvLen.toNat).sum

theorem Bio.length_data (bio : Bio Page Dev) :
    bio.data.length = bio.remaining := by
  simp only [Bio.data, bytesFrom, Bio.remaining, List.length_flatMap,
    BioVec.length_bytes]

/-- The length of the current vector. -/
def Bio.current (bio : Bio Page Dev) : UInt32 := (bio.biIoVec bio.biIdx).bvLen

/-! ## Any calls -/

/-- A bio after any calls of `bio_add_page` and of `bio_advance` with at most
`bi_size` bytes.  The flag says that `bi_size` did not wrap and that every
`bio_advance` took at most the bytes of its current vector. -/
inductive Advanced : Bool → Bio Page Dev → Prop
  | alloc (nrVecs : Nat) (memory : Nat → BioVec Page) (sector : UInt64)
      (op : UInt16) (bdev : Option Dev) :
      Advanced true { (bioAlloc nrVecs memory : Bio Page Dev) with
        biSector := sector, biOp := op, biBdev := bdev }
  | add {inside : Bool} {bio bio' : Bio Page Dev} {page : Page}
      {len offset : UInt32} (h : Advanced inside bio)
      (hadd : bioAddPage bio page len offset = some bio') :
      Advanced (inside && decide (bio.biSize.toNat + len.toNat < 2 ^ 32)) bio'
  | advance {inside : Bool} {bio : Bio Page Dev} {bytes : UInt32}
      (h : Advanced inside bio) (hle : bytes ≤ bio.biSize) :
      Advanced (inside && decide (bytes ≤ bio.current)) (bioAdvance bio bytes)

/-- What `bi_size` says about the vectors: their number of bytes, or at least
`2 ^ 32` too few. -/
structure Tracked (inside : Bool) (bio : Bio Page Dev) : Prop where
  idx_le : bio.biIdx ≤ bio.biVcnt
  exact : inside = true → bio.remaining = bio.biSize.toNat
  excess : inside = false → bio.biSize.toNat + 2 ^ 32 ≤ bio.remaining

theorem remaining_of_end {bio : Bio Page Dev} (hend : bio.biIdx = bio.biVcnt) :
    bio.remaining = 0 := by
  simp [Bio.remaining, hend]

theorem Tracked.eq_of_remaining {inside : Bool} {bio : Bio Page Dev}
    (h : Tracked inside bio) (heq : bio.remaining = bio.biSize.toNat) :
    inside = true := by
  cases inside with
  | true => rfl
  | false =>
      have hexcess := h.excess rfl
      omega

/-- A call after which `bi_size` is as far from the bytes of the vectors as
before, or `2 ^ 32` further. -/
theorem Tracked.gap {inside ok : Bool} {bio bio' : Bio Page Dev}
    (h : Tracked inside bio) (hidx : bio'.biIdx ≤ bio'.biVcnt)
    (hgap : bio'.remaining + bio.biSize.toNat =
      bio.remaining + bio'.biSize.toNat + if ok then 0 else 2 ^ 32) :
    Tracked (inside && ok) bio' where
  idx_le := hidx
  exact := by
    intro hflag
    obtain ⟨rfl, rfl⟩ := Bool.and_eq_true_iff.mp hflag
    have hexact := h.exact rfl
    rw [if_pos rfl] at hgap
    omega
  excess := by
    intro hflag
    cases inside with
    | true =>
        obtain rfl : ok = false := by simpa using hflag
        have hexact := h.exact rfl
        rw [if_neg (by decide)] at hgap
        omega
    | false =>
        have hexcess := h.excess rfl
        omega

theorem Tracked.add {inside : Bool} {bio bio' : Bio Page Dev} {page : Page}
    {len offset : UInt32} (h : Tracked inside bio)
    (hadd : bioAddPage bio page len offset = some bio') :
    Tracked (inside && decide (bio.biSize.toNat + len.toNat < 2 ^ 32)) bio' := by
  obtain ⟨hidx, hvcnt, hsize, hdata⟩ := bioAddPage_some h.idx_le hadd
  have hsum : bio'.biSize.toNat = (bio.biSize.toNat + len.toNat) % 2 ^ 32 := by
    rw [hsize, UInt32.toNat_add]
  have hremaining : bio'.remaining = bio.remaining + len.toNat := by
    rw [← Bio.length_data, ← Bio.length_data, hdata, List.length_append,
      BioVec.length_bytes]
  have hidx_le := h.idx_le
  refine h.gap (by omega) ?_
  have hlen := len.toNat_lt
  have hold := bio.biSize.toNat_lt
  simp only [decide_eq_true_eq]
  split
  · omega
  · omega

/-- What is left after `bio_advance`: the bytes it took are gone, or the length
of the current vector has wrapped. -/
theorem remaining_bioAdvance {bio : Bio Page Dev}
    (hidx : bio.biIdx < bio.biVcnt) (bytes : UInt32) :
    (bioAdvance bio bytes).remaining + bytes.toNat =
      bio.remaining + if bytes ≤ bio.current then 0 else 2 ^ 32 := by
  have hlength : (bioAdvance bio bytes).remaining + bio.current.toNat =
      bio.remaining + (bio.current - bytes).toNat := by
    rw [← Bio.length_data, ← Bio.length_data, data_bioAdvance_eq hidx,
      data_eq_cons hidx, List.length_append, List.length_append,
      BioVec.length_bytes, BioVec.length_bytes]
    show (bio.current - bytes).toNat + _ + _ = bio.current.toNat + _ + _
    omega
  split
  next hle =>
    have hsub := UInt32.toNat_sub_of_le _ _ hle
    have hnat := UInt32.le_iff_toNat_le.mp hle
    omega
  next hgt =>
    have hnat : bio.current.toNat < bytes.toNat := by
      rw [UInt32.le_iff_toNat_le] at hgt
      omega
    have hbytes := bytes.toNat_lt
    have hsub : (bio.current - bytes).toNat =
        2 ^ 32 - bytes.toNat + bio.current.toNat := by
      rw [UInt32.toNat_sub]
      omega
    omega

theorem bioAdvance_idx_le {bio : Bio Page Dev} (hidx : bio.biIdx ≤ bio.biVcnt)
    (bytes : UInt32) :
    (bioAdvance bio bytes).biIdx ≤ (bioAdvance bio bytes).biVcnt := by
  have hle := (bioAdvance_skipped bio bytes).le
  rwa [Nat.add_sub_cancel' hidx] at hle

/-- Nothing is left, so nothing is taken. -/
theorem Tracked.advance_of_end {inside : Bool} {bio : Bio Page Dev}
    {bytes : UInt32} (h : Tracked inside bio) (hend : bio.biIdx = bio.biVcnt)
    (hle : bytes ≤ bio.biSize) :
    bytes = 0 ∧ (bioAdvance bio bytes).remaining = 0 := by
  have hnone := remaining_of_end hend
  have hnat := UInt32.le_iff_toNat_le.mp hle
  have hzero : bytes.toNat = 0 := by
    cases inside with
    | true =>
        have hexact := h.exact rfl
        omega
    | false =>
        have hexcess := h.excess rfl
        omega
  refine ⟨UInt32.toNat_inj.mp hzero, remaining_of_end ?_⟩
  have hge := (bioAdvance_skipped bio bytes).ge
  have hidx := bioAdvance_idx_le h.idx_le bytes
  have hvcnt : (bioAdvance bio bytes).biVcnt = bio.biVcnt := rfl
  omega

theorem Tracked.advance {inside : Bool} {bio : Bio Page Dev} {bytes : UInt32}
    (h : Tracked inside bio) (hle : bytes ≤ bio.biSize) :
    Tracked (inside && decide (bytes ≤ bio.current)) (bioAdvance bio bytes) := by
  have hnat := UInt32.le_iff_toNat_le.mp hle
  have hsize : (bioAdvance bio bytes).biSize.toNat =
      bio.biSize.toNat - bytes.toNat := UInt32.toNat_sub_of_le _ _ hle
  refine h.gap (bioAdvance_idx_le h.idx_le bytes) ?_
  simp only [decide_eq_true_eq]
  rcases Nat.lt_or_eq_of_le h.idx_le with hidx | hend
  · have hremaining := remaining_bioAdvance hidx bytes
    omega
  · obtain ⟨rfl, hnone⟩ := h.advance_of_end hend hle
    have hzero : (0 : UInt32) ≤ bio.current := UInt32.zero_le
    rw [if_pos hzero, hnone, remaining_of_end hend, hsize]
    rfl

theorem Advanced.tracked {inside : Bool} {bio : Bio Page Dev}
    (h : Advanced inside bio) : Tracked inside bio := by
  induction h with
  | alloc nrVecs memory sector op bdev =>
      exact ⟨le_rfl, fun _ => rfl, fun hfalse => by cases hfalse⟩
  | add h hadd ih => exact ih.add hadd
  | advance h hle ih => exact ih.advance hle

/-! ## One call -/

/-- The vectors that `bio_advance` reads or writes: from the current one to the
one at which the loop stops. -/
def touched (bio : Bio Page Dev) (bytes : UInt32) : List Nat :=
  List.range' bio.biIdx ((bioAdvance bio bytes).biIdx + 1 - bio.biIdx)

/-- `bio_advance` consumes exactly the next bytes. -/
structure ConsumesExactly (bio : Bio Page Dev) (bytes : UInt32) : Prop where
  data_eq : (bioAdvance bio bytes).data = bio.data.drop bytes.toNat
  size_eq : (bioAdvance bio bytes).biSize.toNat =
    (bioAdvance bio bytes).remaining
  idx_le : (bioAdvance bio bytes).biIdx ≤ (bioAdvance bio bytes).biVcnt
  untouched : ∀ i ∈ touched bio bytes, i < bio.biVcnt
  in_two : ∀ a b : UInt32, a.toNat + b.toNat = bytes.toNat →
    bioAdvance (bioAdvance bio a) b = bioAdvance bio bytes

theorem touched_lt_iff (bio : Bio Page Dev) (bytes : UInt32) :
    (∀ i ∈ touched bio bytes, i < bio.biVcnt) ↔
      (bioAdvance bio bytes).biIdx < bio.biVcnt := by
  have hge := (bioAdvance_skipped bio bytes).ge
  simp only [touched, List.mem_range'_1]
  constructor
  · intro hall
    exact hall _ ⟨hge, by omega⟩
  · intro hlt i hi
    omega

/-- Where the loop stops inside the bio, there are bytes left. -/
theorem idx_lt_iff_remaining_pos {bio : Bio Page Dev}
    (hidx : bio.biIdx ≤ bio.biVcnt) (bytes : UInt32) :
    (bioAdvance bio bytes).biIdx < bio.biVcnt ↔
      0 < (bioAdvance bio bytes).remaining := by
  have hskipped := bioAdvance_skipped bio bytes
  have hvcnt : (bioAdvance bio bytes).biVcnt = bio.biVcnt := rfl
  constructor
  · intro hlt
    rcases hskipped.stops with hend | hnonempty
    · omega
    · have hpos : 0 < (bioAdvance bio bytes).current.toNat := by
        apply Nat.pos_of_ne_zero
        intro hzero
        exact hnonempty (UInt32.toNat_inj.mp hzero)
      rw [← Bio.length_data, data_eq_cons (by rwa [hvcnt]), List.length_append,
        BioVec.length_bytes]
      exact Nat.lt_of_lt_of_le hpos (Nat.le_add_right _ _)
  · intro hpos
    have hle := bioAdvance_idx_le hidx bytes
    rcases Nat.lt_or_eq_of_le hle with hlt | hend
    · exact hlt
    · rw [remaining_of_end hend] at hpos
      omega

/-! ## Two calls for one -/

theorem BioVec.advance_advance (bv : BioVec Page) (a b : UInt32) :
    (bv.advance a).advance b = bv.advance (a + b) := by
  have hlen : bv.bvLen - a - b = bv.bvLen - (a + b) := by grind
  simp only [BioVec.advance, UInt32.add_assoc, hlen]

@[simp] theorem BioVec.advance_zero (bv : BioVec Page) : bv.advance 0 = bv := by
  simp [BioVec.advance]

theorem skipEmpty_of_nonempty {vec : Nat → BioVec Page} {idx : Nat}
    (hnonempty : (vec idx).bvLen ≠ 0) (remaining : Nat) :
    skipEmpty vec remaining idx = idx := by
  cases remaining with
  | zero => rfl
  | succ remaining => rw [skipEmpty, if_neg hnonempty]

/-- A call for zero bytes changes nothing if there is no empty vector to pass
over. -/
theorem bioAdvance_zero {bio : Bio Page Dev}
    (hstops : bio.biIdx = bio.biVcnt ∨ bio.current ≠ 0) :
    bioAdvance bio 0 = bio := by
  have hvecs : Function.update bio.biIoVec bio.biIdx
      ((bio.biIoVec bio.biIdx).advance 0) = bio.biIoVec := by
    rw [BioVec.advance_zero, Function.update_eq_self]
  have hskip : skipEmpty bio.biIoVec (bio.biVcnt - bio.biIdx) bio.biIdx =
      bio.biIdx := by
    rcases hstops with hend | hnonempty
    · rw [hend, Nat.sub_self]
      rfl
    · exact skipEmpty_of_nonempty hnonempty _
  simp only [bioAdvance, hvecs, hskip, UInt32.sub_zero]

/-- As long as the current vector has bytes left, the index stays. -/
theorem bioAdvance_idx_of_lt {bio : Bio Page Dev} {a : UInt32}
    (hlt : a < bio.current) : (bioAdvance bio a).biIdx = bio.biIdx := by
  have hnonempty : bio.current - a ≠ 0 := by
    intro hzero
    have hsub := UInt32.toNat_sub_of_le _ _ (UInt32.le_of_lt hlt)
    have hnat := UInt32.lt_iff_toNat_lt.mp hlt
    rw [hzero, UInt32.toNat_zero] at hsub
    omega
  apply skipEmpty_of_nonempty
  rw [Function.update_self]
  exact hnonempty

theorem bioAdvance_bioAdvance {bio : Bio Page Dev}
    (hidx : bio.biIdx < bio.biVcnt) {a b bytes : UInt32}
    (hsum : a.toNat + b.toNat = bytes.toNat) (hle : bytes ≤ bio.current) :
    bioAdvance (bioAdvance bio a) b = bioAdvance bio bytes := by
  have hbytes : bytes = a + b := by
    apply UInt32.toNat_inj.mp
    have hlt := bytes.toNat_lt
    rw [UInt32.toNat_add, hsum, Nat.mod_eq_of_lt hlt]
  have hnat := UInt32.le_iff_toNat_le.mp hle
  rcases Nat.lt_or_ge a.toNat bio.current.toNat with hlt | hge
  · -- both calls change the same vector
    have hstays := bioAdvance_idx_of_lt (UInt32.lt_iff_toNat_lt.mpr hlt)
    have hvecs : advancedVecs (bioAdvance bio a) b = advancedVecs bio bytes := by
      rw [advancedVecs, hstays]
      show Function.update (advancedVecs bio a) bio.biIdx
        ((advancedVecs bio a bio.biIdx).advance b) = _
      rw [advancedVecs, Function.update_self, Function.update_idem,
        BioVec.advance_advance, ← hbytes]
      rfl
    have hsize : bio.biSize - a - b = bio.biSize - bytes := by
      rw [hbytes]
      grind
    show ({ bioAdvance bio a with
      biIoVec := advancedVecs (bioAdvance bio a) b
      biSize := bio.biSize - a - b
      biIdx := skipEmpty (advancedVecs (bioAdvance bio a) b)
        (bio.biVcnt - (bioAdvance bio a).biIdx) (bioAdvance bio a).biIdx } :
        Bio Page Dev) = _
    rw [hvecs, hstays, hsize]
    rfl
  · -- the first call uses the vector up and nothing is left for the second
    have hzero : b = 0 := UInt32.toNat_inj.mp (by simp; omega)
    have hall : a = bytes := by rw [hbytes, hzero, UInt32.add_zero]
    rw [hzero, hall]
    apply bioAdvance_zero
    have hstops := (bioAdvance_skipped bio bytes).stops
    rwa [Nat.add_sub_cancel' hidx.le] at hstops

/-! ## When a call is exact -/

/-- For any bio filled by `bio_add_page` and advanced by any calls, the next
call consumes exactly its bytes if and only if `bi_size` is right, which it is
as long as no size and no vector has wrapped, the bytes are all in the current
vector, and they are not the last ones. -/
theorem consumesExactly_iff {inside : Bool} {bio : Bio Page Dev}
    {bytes : UInt32} (h : Advanced inside bio) (hle : bytes ≤ bio.biSize) :
    ConsumesExactly bio bytes ↔
      inside = true ∧ bytes ≤ bio.current ∧ bytes < bio.biSize := by
  have hbefore := h.tracked
  have hafter := hbefore.advance hle
  have hsize : (bioAdvance bio bytes).biSize.toNat =
      bio.biSize.toNat - bytes.toNat := UInt32.toNat_sub_of_le _ _ hle
  have hpos := idx_lt_iff_remaining_pos hbefore.idx_le bytes
  constructor
  · intro hexact
    have hflag := hafter.eq_of_remaining hexact.size_eq.symm
    rw [Bool.and_eq_true, decide_eq_true_eq] at hflag
    refine ⟨hflag.1, hflag.2, ?_⟩
    have hleft := hpos.mp ((touched_lt_iff bio bytes).mp hexact.untouched)
    rw [← hexact.size_eq] at hleft
    rw [UInt32.lt_iff_toNat_lt]
    omega
  · rintro ⟨rfl, hcurrent, hlt⟩
    have hnat := UInt32.lt_iff_toNat_lt.mp hlt
    have hsum := hafter.exact (by simp [hcurrent])
    -- bytes are left, so that the bio is not at its end
    have hidx : bio.biIdx < bio.biVcnt := by
      rcases Nat.lt_or_eq_of_le hbefore.idx_le with hin | hend
      · exact hin
      · have hnone := remaining_of_end hend
        have hexact := hbefore.exact rfl
        omega
    exact {
      data_eq := data_bioAdvance hidx hcurrent
      size_eq := hsum.symm
      idx_le := hafter.idx_le
      untouched := (touched_lt_iff bio bytes).mpr (hpos.mpr (by omega))
      in_two := fun a b hab => bioAdvance_bioAdvance hidx hab hcurrent }

/-- A bio with one page of 512 bytes, and room for another. -/
def onePage : Bio Unit Unit :=
  { (bioAlloc 2 freshVecs : Bio Unit Unit) with
    biVcnt := 1, biSize := 512
    biIoVec := Function.update freshVecs 0 ⟨(), 512, 0⟩ }

/-- The bio with two pages of 512 bytes. -/
def twoPages : Bio Unit Unit :=
  { onePage with
    biVcnt := 2, biSize := 1024
    biIoVec := Function.update onePage.biIoVec 1 ⟨(), 512, 0⟩ }

theorem advanced_twoPages : Advanced true twoPages := by
  have hempty : Advanced true (bioAlloc 2 freshVecs : Bio Unit Unit) :=
    .alloc 2 freshVecs 0 bioOpRead none
  have hfirst : bioAddPage (bioAlloc 2 freshVecs : Bio Unit Unit) () 512 0 =
      some onePage := rfl
  have hsecond : bioAddPage onePage () 512 0 = some twoPages := rfl
  exact (hempty.add hfirst).add hsecond

/-- Half of the first page is done. -/
theorem consumesExactly_half_page : ConsumesExactly twoPages 256 :=
  (consumesExactly_iff advanced_twoPages (by decide)).mpr
    ⟨rfl, by decide, by decide⟩

/-- One and a half pages are more than the current vector has: its length wraps
to `2 ^ 32 - 256`, and the index stays at it. -/
theorem consumesExactly_fails_page_and_half :
    (bioAdvance twoPages 768).biIdx = 0 ∧
      (bioAdvance twoPages 768).biSize = 256 ∧
      ((bioAdvance twoPages 768).biIoVec 0).bvLen.toNat = 2 ^ 32 - 256 ∧
      ¬ ConsumesExactly twoPages 768 := by
  have hremaining : (bioAdvance twoPages 768).remaining =
      2 ^ 32 - 256 + 512 := by decide
  refine ⟨by decide, by decide, by decide, ?_⟩
  intro hexact
  have hsize := hexact.size_eq
  rw [hremaining] at hsize
  exact absurd hsize (by decide)

end BlockIo
end OsKernel
